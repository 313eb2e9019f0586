import ValkeyFdw.Safety.Rows

/-!
# Rows a committed transaction did not name

An UPDATE or DELETE names the row it found. A row that existed before a
transaction and that no operation of it names should survive unchanged, and no
UPDATE should move its row onto another that is live. For the tables whose row
is a key the checks guarantee both, up to a rename onto a key the transaction
has itself written. For mapped sets and sorted sets a change of the member is
not checked against the members that are there, and a rename of the key carries
the other members along (`no_row_lost`).
-/

namespace ValkeyFdw

open Server Trace

/-! ## Keys the transaction creates -/

section Created

variable {op : WriteOp} {ops : List WriteOp} {L L' : Ledger} {plan : Plan} {ks : Keyspace}
  {k : Bytes}

/-- A key that the transaction creates is required to be absent. -/
def CreatedAbsent (L : Ledger) : Prop :=
  ∀ k p, L.plan? k = some p → p.state = .created → .keyAbsent ∈ p.checks

theorem Ledger.keyAbsent_startPlan (hNone : L.plan? op.key = none)
    (hCreates : op.kind = .insert ∨ op.isRename = true) :
    .keyAbsent ∈ (L.startPlan op).checks := by
  unfold Ledger.startPlan
  rw [(Plan.foldRename_same _ op).1]
  simp [Plan.precondition, hNone, hCreates, Plan.addCheck]

theorem CreatedAbsent.step (h : CreatedAbsent L) (hStep : NoteStep op L L' plan) :
    CreatedAbsent L' := by
  intro k p hp hState
  by_cases hNames : k ∈ op.names
  · rcases WriteOp.mem_names hNames with rfl | ⟨hRen, hOld⟩
    · rw [hStep.plan_key] at hp
      cases hp
      -- The state after the step is `created` only if the step found it so.
      have hStart : (L.startPlan op).state = .created := by
        rw [hStep.state_eq, WriteOp.nextState] at hState
        split_ifs at hState
        exact hState
      refine (foldWrite_extends hStep.write).checks ?_
      rw [Ledger.startPlan_state] at hStart
      cases hPlan : L.plan? op.key with
      | some p =>
        rw [hPlan] at hStart
        have hExt := L.startPlan_extends op
        rw [show L.entry op.key op.tabletype = p by simp [Ledger.entry, hPlan]] at hExt
        exact hExt.checks (h _ p hPlan hStart)
      | none =>
        rw [hPlan] at hStart
        refine Ledger.keyAbsent_startPlan hPlan ?_
        by_contra hCreates
        simp [hCreates] at hStart
    · rw [hStep.plan_old hRen hOld] at hp
      cases hp
      rw [Ledger.sourcePlan_state] at hState
      cases hPlan : L.plan? k with
      | some p =>
        rw [hPlan] at hState
        have hExt := L.sourcePlan_extends op k
        rw [show L.entry k op.tabletype = p by simp [Ledger.entry, hPlan]] at hExt
        exact hExt.checks (h _ p hPlan hState)
      | none => simp [hPlan] at hState
  · rw [hStep.plan_other hNames] at hp
    exact h k p hp hState

theorem CreatedAbsent.empty : CreatedAbsent .empty := by
  intro k p hp
  simp [Ledger.plan?, Ledger.empty] at hp

theorem CreatedAbsent.state_ne (h : CreatedAbsent L) (hPass : L.Passes ks) (hk : (ks k).isSome)
    {p : Plan} (hp : L.plan? k = some p) : p.state ≠ .created := by
  intro hState
  have hNone := keyAbsent_holds.mp ((hPass k p hp).2 _ (h k p hp hState))
  simp [hNone] at hk

end Created

/-! ## Rows that no operation names -/

/-- No operation deletes, updates or renames the row. -/
def Unnamed (ops : List WriteOp) (r : RowId) : Prop :=
  ∀ op ∈ ops, op.kind ≠ .insert → op.oldRow ≠ r

instance (ops : List WriteOp) (r : RowId) : Decidable (Unnamed ops r) :=
  inferInstanceAs (Decidable (∀ op ∈ ops, op.kind ≠ .insert → op.oldRow ≠ r))

/-- The operation neither removes nor adds the member. -/
def Avoids (m : Bytes) (op : WriteOp) : Prop :=
  ∀ m' ∈ op.member, m' ≠ m ∧ op.oldmember.getD m' ≠ m

section Unnamed

variable {ops : List WriteOp} {op : WriteOp} {L L' : Ledger} {ks : Keyspace} {k m : Bytes}

/-- A key that holds something and that no operation names by its old name is
touched by none: the first to do so would have to create it. -/
theorem untouched_of_unnamed (hFold : foldOps ops L = .ok L') (hPass : L'.Passes ks)
    (hBuffered : ∀ op ∈ ops, op.Buffered) (hk : (ks k).isSome) (hNone : L.plan? k = none)
    (hNamed : ∀ op ∈ ops, op.kind ≠ .insert → op.oldkey.getD op.key ≠ k) :
    ∀ op ∈ ops, k ∉ op.names := by
  induction ops generalizing L with
  | nil => simp
  | cons op ops ih =>
    obtain ⟨L₁, hNote, hRest⟩ := foldOps_cons.mp hFold
    obtain ⟨plan, hStep⟩ := note_spec hNote
    rw [List.forall_mem_cons] at hBuffered hNamed ⊢
    have hHead : k ∉ op.names := by
      intro hNames
      rcases WriteOp.mem_names hNames with rfl | ⟨hRen, hOld⟩
      · by_cases hCreates : op.kind = .insert ∨ op.isRename = true
        · have hAbsent := (hStep.first_touch (foldOps_passes_before hRest hPass) hNone).1 hCreates
          simp [hAbsent] at hk
        · rw [not_or, Bool.not_eq_true] at hCreates
          exact hNamed.1 hCreates.1 (hBuffered.1.oldkey_eq hCreates.2)
      · have hKind : op.kind ≠ .insert := by simp [(WriteOp.isRename_iff.mp hRen).1]
        exact hNamed.1 hKind (by simp [hOld])
    exact ⟨hHead, ih hRest hBuffered.2 (by rw [hStep.plan_other hHead, hNone]) hNamed.2⟩

theorem recordMember_avoids {members : Members} (hAvoids : Avoids m op) :
    op.recordMember members op.key m = members op.key m := by
  have hMark : ∀ (members : Members) (sub : Bytes) (b : Bool), sub ≠ m →
      op.mark members sub b op.key m = members op.key m := by
    intro members sub b hne
    unfold WriteOp.mark Members.enter
    rw [Function.update_self, Function.update_of_ne hne.symm]
  unfold WriteOp.recordMember
  cases hMember : op.member with
  | none => rfl
  | some m' =>
    obtain ⟨hne, hne'⟩ := hAvoids m' hMember
    dsimp only
    split_ifs
    · exact hMark _ _ _ hne'
    · rw [hMark _ _ _ hne, hMark _ _ _ hne']
    · exact hMark _ _ _ hne'

/-- What is known of the operations on a key of a mapped set or sorted set: all
are of one type, none is a rename, and none moves a row onto the member. -/
structure OnMembers (t : TableType) (k m : Bytes) (op : WriteOp) : Prop where
  buffered : op.Buffered
  type : k ∈ op.names → op.tabletype = t ∧ op.packedShape = false
  noRename : k ∈ op.names → op.isRename = false
  noMove : op.key = k → op.kind = .update → op.member = some m → op.oldmember.getD m = m

theorem OnMembers.key_of_names {t : TableType} (h : OnMembers t k m op) (hNames : k ∈ op.names) :
    op.key = k := by
  rw [WriteOp.names_of_not_rename (h.noRename hNames), List.mem_singleton] at hNames
  exact hNames.symm

/-- The first INSERT of a member that is there would be refused by its check. -/
theorem OnMembers.avoids {t : TableType} (ht : t = .set ∨ t = .zset) (hOp : OnMembers t k m op)
    (hKey : op.key = k) (hNote : note op L = .ok L') (hPass : L'.Passes ks)
    (hCreated : CreatedAbsent L) (hTypes : ∀ p, L.plan? k = some p → p.ttype = t)
    (hEntry : L.members k m = none) (hHeld : holdsSub (ks k) m = true)
    (hUnnamed : op.kind ≠ .insert → op.oldRow ≠ (k, some m)) : Avoids m op := by
  subst hKey
  obtain ⟨hType, hPacked⟩ := hOp.type List.mem_cons_self
  have hRen := hOp.noRename List.mem_cons_self
  have hSome := isSome_of_holdsSub hHeld
  intro m' hMember
  have hRow : op.rowMember = some m' := by
    rcases ht with rfl | rfl <;>
      simpa [WriteOp.rowMember, WriteOp.byMember, hPacked, hType] using hMember
  have hOldRow : op.oldRow = (op.key, some (op.oldmember.getD m')) := by
    simp [WriteOp.oldRow, hRow, hOp.buffered.oldkey_eq hRen]
  cases hKind : op.kind with
  | insert =>
    have hOldMember : op.oldmember = none := hOp.buffered.oldmember (by simp [hKind])
    suffices h : m' ≠ m by simpa [hOldMember] using h
    rintro rfl
    obtain ⟨plan, hStep⟩ := note_spec hNote
    have hEntryType : (L.entry op.key op.tabletype).ttype = op.tabletype := by
      unfold Ledger.entry
      cases hPlan : L.plan? op.key with
      | none => rfl
      | some p => exact (hTypes p hPlan).trans hType.symm
    have hKeyType : HoldsType op.tabletype.valueType (ks op.key) := by
      rw [← hEntryType, ← hStep.plan_extends.ttype]
      exact (hPass _ _ hStep.plan_key).1
    have hSupported : op.Supported :=
      ⟨by rcases ht with rfl | rfl <;> simp [hType], by simp [hPacked]⟩
    obtain ⟨-, hOk⟩ := (note_passes_iff ks L hSupported hEntryType
      (by simpa [WriteOp.names_of_not_rename hRen] using hKeyType)).mp ⟨L', hNote, hPass⟩
    have hState : (L.startPlan op).state ≠ .created := by
      rw [Ledger.startPlan_state]
      cases hPlan : L.plan? op.key with
      | some p => exact hCreated.state_ne (hStep.passes_before hPass) hSome hPlan
      | none =>
        have hAbsent := (hStep.first_touch hPass hPlan).1 (.inl hKind)
        simp [hAbsent] at hSome
    have hDel : op.deletesKey = false := by simp [WriteOp.deletesKey, hKind]
    have hMemberOk : MemberOk ks op (L.startPlan op).state L.members := by
      have hWrite := hOk.write hDel hPacked
      rcases ht with rfl | rfl <;> rwa [hType] at hWrite
    have hSub := hMemberOk m' hMember
    rw [hOldMember, Option.getD_none, hEntry] at hSub
    exact (hSub hState).mp hKind hHeld
  | update =>
    have hOld : op.oldmember.getD m' ≠ m := by
      intro h
      exact hUnnamed (by simp [hKind]) (by rw [hOldRow, h])
    refine ⟨?_, hOld⟩
    rintro rfl
    exact hOld (hOp.noMove rfl hKind hMember)
  | delete =>
    have hOldMember : op.oldmember = none := hOp.buffered.oldmember (by simp [hKind])
    have hOld : op.oldmember.getD m' ≠ m := by
      intro h
      exact hUnnamed (by simp [hKind]) (by rw [hOldRow, h])
    refine ⟨?_, hOld⟩
    simpa [hOldMember] using hOld

/-- No operation of a passing transaction writes a member that was there and
that none of them names. -/
theorem avoids_of_unnamed {t : TableType} (ht : t = .set ∨ t = .zset)
    (hFold : foldOps ops L = .ok L') (hPass : L'.Passes ks)
    (hOps : ∀ op ∈ ops, OnMembers t k m op) (hCreated : CreatedAbsent L)
    (hTypes : ∀ p, L.plan? k = some p → p.ttype = t) (hEntry : L.members k m = none)
    (hHeld : holdsSub (ks k) m = true) (hUnnamed : Unnamed ops (k, some m)) :
    ∀ op ∈ ops, op.key = k → Avoids m op := by
  induction ops generalizing L with
  | nil => simp
  | cons op ops ih =>
    obtain ⟨L₁, hNote, hRest⟩ := foldOps_cons.mp hFold
    obtain ⟨plan, hStep⟩ := note_spec hNote
    have hPass₁ := foldOps_passes_before hRest hPass
    rw [List.forall_mem_cons] at hOps
    rw [Unnamed, List.forall_mem_cons] at hUnnamed
    have hHead : op.key = k → Avoids m op := fun hKey =>
      hOps.1.avoids ht hKey hNote hPass₁ hCreated hTypes hEntry hHeld hUnnamed.1
    have hTypes₁ : ∀ p, L₁.plan? k = some p → p.ttype = t := by
      intro p hp
      by_cases hNames : k ∈ op.names
      · obtain rfl := hOps.1.key_of_names hNames
        rw [hStep.plan_key] at hp
        cases hp
        rw [hStep.plan_extends.ttype, Ledger.entry]
        cases hPlan : L.plan? op.key with
        | none => exact (hOps.1.type hNames).1
        | some p => exact hTypes p hPlan
      · rw [hStep.plan_other hNames] at hp
        exact hTypes p hp
    have hEntry₁ : L₁.members k m = none := by
      rw [hStep.members_eq]
      by_cases hKey : op.key = k
      · subst hKey
        obtain ⟨hType, hPacked⟩ := hOps.1.type List.mem_cons_self
        have hRecord : op.record L.members = op.recordMember L.members := by
          rcases ht with rfl | rfl <;>
            simp [WriteOp.record, WriteOp.deletesKey, hPacked, hType]
        rw [hRecord, recordMember_avoids (hHead rfl), hEntry]
      · rw [record_other (Ne.symm hKey), hEntry]
    rw [List.forall_mem_cons]
    exact ⟨hHead, ih hRest hOps.2 (hCreated.step hStep) hTypes₁ hEntry₁ hUnnamed.2⟩

end Unnamed

/-! ## What the program leaves of a row -/

/-- What a key holds of a member: whether it is there, and its score. -/
def rowContent (e : Option Value) (m : Bytes) : Bool × Option Bytes := (holdsSub e m, scoreOf e m)

theorem rowContent_of_occurrences {e : Option Value} {v : Bytes} (h : 0 < occurrences e v) :
    rowContent e v = (true, none) := by
  cases e with
  | none => simp [occurrences] at h
  | some x =>
    cases x with
    | list l => simpa [rowContent, holdsSub, scoreOf, occurrences, List.count_pos_iff] using h
    | _ => simp [occurrences] at h

section Content

variable [Doubles] {now : Nat} {op : WriteOp} {ks ks' : Keyspace} {k m y : Bytes}

theorem rowContent_remMember {z : Bool} (h : (remMember z y).exec now k ks = .ok ks')
    (hne : y ≠ m) : rowContent (ks' k) m = rowContent (ks k) m := by
  have hHolds : holdsSub (ks' k) m = holdsSub (ks k) m := by
    rw [Bool.eq_iff_iff, exec_remMember h]
    exact and_iff_right hne.symm
  refine Prod.ext hHolds ?_
  cases z with
  | true =>
    obtain ⟨t, ht, rfl⟩ := onCollection_ok (C := zsets) |>.mp h
    simp only [rowContent, Function.update_self]
    rw [scoreOf_of_zsets (zsets.read_write _), scoreOf_of_zsets ht,
      Finmap.lookup_erase_ne hne.symm]
  | false =>
    obtain ⟨t, ht, rfl⟩ := onCollection_ok (C := sets) |>.mp h
    simp only [rowContent, Function.update_self]
    rw [scoreOf_of_sets (sets.read_write _), scoreOf_of_sets ht]

theorem rowContent_addMember {z : Bool} (h : (addMember z op y).exec now k ks = .ok ks')
    (hne : y ≠ m) : rowContent (ks' k) m = rowContent (ks k) m := by
  have hHolds : holdsSub (ks' k) m = holdsSub (ks k) m := by
    rw [Bool.eq_iff_iff, exec_addMember h]
    exact or_iff_right hne.symm
  refine Prod.ext hHolds ?_
  cases z with
  | true =>
    obtain ⟨s, -, h⟩ := zadd_ok.mp h
    obtain ⟨t, ht, rfl⟩ := onCollection_ok.mp h
    simp only [rowContent, Function.update_self]
    rw [scoreOf_of_zsets (zsets.read_write _), scoreOf_of_zsets ht,
      Finmap.lookup_insert_of_ne _ hne.symm]
  | false =>
    obtain ⟨t, ht, rfl⟩ := onCollection_ok (C := sets) |>.mp h
    simp only [rowContent, Function.update_self]
    rw [scoreOf_of_sets (sets.read_write _), scoreOf_of_sets ht]

/-- The actions of an operation that avoids a member leave its row alone. -/
theorem rowContent_action {z : Bool} {a : Action} (ha : a ∈ op.actions z)
    (hRen : op.isRename = false) (hPacked : op.packedShape = false)
    (hType : op.tabletype = .set ∨ op.tabletype = .zset) (hIndex : op.keyset ≠ some op.key)
    (hAvoids : Avoids m op) (h : a.exec now op.key ks = .ok ks') :
    rowContent (ks' op.key) m = rowContent (ks op.key) m := by
  have hRename := WriteOp.renameActions_of_not hRen
  have hDel : op.deletesKey = false := by
    rcases hType with h | h <;> simp [WriteOp.deletesKey, h, hPacked]
  have hShape : op.shapeActions z = op.memberActions z := by
    rcases hType with h | h <;> simp [WriteOp.shapeActions, h]
  rw [WriteOp.actions, hRename, List.nil_append, WriteOp.writeActions] at ha
  simp only [hDel, hPacked, hShape, Bool.false_eq_true, if_false, List.mem_append] at ha
  rcases ha with ha | ha
  · unfold WriteOp.memberActions at ha
    cases hMember : op.member with
    | none => simp [hMember] at ha
    | some m' =>
      obtain ⟨hne, hne'⟩ := hAvoids m' hMember
      simp only [hMember] at ha
      split_ifs at ha
      · rw [List.mem_singleton.mp ha] at h
        exact rowContent_remMember h hne
      · rcases List.mem_pair.mp ha with rfl | rfl
        · exact rowContent_remMember h hne'
        · exact rowContent_addMember h hne
      · rw [List.mem_singleton.mp ha] at h
        exact rowContent_addMember h hne
  · split_ifs at ha
    · rw [(Action.localTo now op.key a).frame h op.key (keysetActions_cells ha hIndex)]
    · cases ha

end Content

/-! ## The program and the rows of one key -/

/-- The operation takes an element of this value out of the list. -/
def Removes (k v : Bytes) (op : WriteOp) : Bool :=
  op.kind = .delete && op.key = k && op.member = some v

/-- What is known of the operations on a key of a mapped list. -/
structure OnElements (k : Bytes) (op : WriteOp) : Prop where
  buffered : op.Buffered
  type : k ∈ op.names → op.tabletype = .list ∧ op.packedShape = false

section Actions

variable {ops : List WriteOp} {op : WriteOp} {L L' : Ledger} {k v : Bytes}

/-- An action of the program that changes a key other than an index belongs to
an operation that has the key among its names. -/
theorem opAction_of_cells (hFrom : L.From ops) {x : Bytes × Action}
    (hx : x ∈ planTrace L.plans) (hIndex : ∀ op ∈ ops, op.keyset ≠ some k)
    (hCells : k ∈ x.2.cells x.1) :
    ∃ op ∈ ops, op.key = x.1 ∧ k ∈ op.names ∧ ∃ z, x.2 ∈ op.actions z := by
  rw [Ledger.planTrace_eq] at hx
  obtain ⟨op, hOp, op', -, hKey, -, ha⟩ := hFrom.actions (Ledger.mem_traceOf.mp hx).2
  rw [← hKey] at hCells
  exact ⟨op, hOp, hKey, ((opAction_of_mem ha).cells hCells).resolve_right (hIndex op hOp), _, ha⟩

theorem OnElements.noRename (h : OnElements k op) (hk : k ∈ op.names) : op.isRename = false := by
  obtain ⟨hType, hPacked⟩ := h.type hk
  simp [WriteOp.isRename, h.buffered.list hType hPacked]

theorem OnElements.actions_eq (h : OnElements k op) (hKey : op.key = k) (z : Bool) :
    op.actions z =
      op.listActions ++ if op.kind = .insert then op.keysetActions op.key true else [] := by
  subst hKey
  obtain ⟨hType, hPacked⟩ := h.type List.mem_cons_self
  have hRename := WriteOp.renameActions_of_not (h.noRename List.mem_cons_self)
  have hDel : op.deletesKey = false := by simp [WriteOp.deletesKey, hType, hPacked]
  simp [WriteOp.actions, hRename, WriteOp.writeActions, hDel, hPacked, WriteOp.shapeActions, hType]

/-- An operation removes an element at most once, and only if it says so. -/
theorem OnElements.count_commands (h : OnElements k op) (z : Bool) :
    ((op.actions z).map fun a => (op.key, a)).count (k, .lrem1 v) =
      if Removes k v op then 1 else 0 := by
  by_cases hKey : op.key = k
  · have hInj : Function.Injective fun a : Action => (op.key, a) := fun _ _ h => (Prod.ext_iff.mp h).2
    rw [← hKey, List.count_map_of_injective _ _ hInj, h.actions_eq hKey, List.count_append]
    have hNone : (if op.kind = .insert then op.keysetActions op.key true else []).count
        (.lrem1 v) = 0 := by
      rw [List.count_eq_zero]
      intro ha
      split_ifs at ha
      · unfold WriteOp.keysetActions at ha
        split at ha <;> simp at ha
      · cases ha
    rw [hNone, Nat.add_zero, WriteOp.listActions, Removes]
    cases hMember : op.member with
    | none => simp
    | some m =>
      by_cases hDel : op.kind = .delete
      · by_cases hm : m = v <;> simp [hDel, hm]
      · simp [hDel]
  · have hNot : (k, Action.lrem1 v) ∉ (op.actions z).map fun a => (op.key, a) := by
      intro hMem
      obtain ⟨a, -, ha⟩ := List.mem_map.mp hMem
      exact hKey (Prod.ext_iff.mp ha).1
    rw [List.count_eq_zero.mpr hNot]
    simp [Removes, hKey]

theorem count_planTrace (hFold : foldOps ops L = .ok L') (hOps : ∀ op ∈ ops, OnElements k op) :
    (planTrace L'.plans).count (k, .lrem1 v) =
      (planTrace L.plans).count (k, .lrem1 v) + ops.countP (Removes k v) := by
  induction ops generalizing L with
  | nil =>
    cases hFold
    simp
  | cons op ops ih =>
    obtain ⟨L₁, hNote, hRest⟩ := foldOps_cons.mp hFold
    obtain ⟨plan, hStep⟩ := note_spec hNote
    obtain ⟨pre, hBefore, hAfter⟩ := hStep.trace
    rw [List.forall_mem_cons] at hOps
    have hCount := hOps.1.count_commands (v := v) (L.isZset op)
    rw [ih hRest hOps.2, hAfter, hBefore, List.countP_cons]
    simp only [List.count_append, hCount]
    omega

end Actions

section Trace

variable [Doubles] {now : Nat} {ops : List WriteOp} {op : WriteOp} {L L' : Ledger}
  {ks ks' : Keyspace} {k m v : Bytes}

theorem key_unchanged (hFrom : L.From ops)
    (hRun : run (execStep now) (planTrace L.plans) ks = .ok ks')
    (hIndex : ∀ op ∈ ops, op.keyset ≠ some k) (hNames : ∀ op ∈ ops, k ∉ op.names) :
    ks' k = ks k := by
  refine run_frame (g := fun ks : Keyspace => ks k) (fun x hx ks₁ ks₂ hExec => ?_) hRun
  refine (Action.localTo now x.1 x.2).frame hExec k fun hCells => ?_
  obtain ⟨op, hOp, -, hk, -⟩ := opAction_of_cells hFrom hx hIndex hCells
  exact hNames op hOp hk

theorem member_unchanged {t : TableType} (ht : t = .set ∨ t = .zset) (hFrom : L.From ops)
    (hRun : run (execStep now) (planTrace L.plans) ks = .ok ks')
    (hIndex : ∀ op ∈ ops, op.keyset ≠ some k) (hOps : ∀ op ∈ ops, OnMembers t k m op)
    (hAvoids : ∀ op ∈ ops, op.key = k → Avoids m op) :
    rowContent (ks' k) m = rowContent (ks k) m := by
  refine run_frame (g := fun ks : Keyspace => rowContent (ks k) m)
    (fun x hx ks₁ ks₂ hExec => ?_) hRun
  by_cases hCells : k ∈ x.2.cells x.1
  · obtain ⟨op, hOp, hKey, hk, z, ha⟩ := opAction_of_cells hFrom hx hIndex hCells
    obtain rfl := (hOps op hOp).key_of_names hk
    obtain ⟨hType, hPacked⟩ := (hOps op hOp).type hk
    rw [execStep, ← hKey] at hExec
    exact rowContent_action ha ((hOps op hOp).noRename hk) hPacked (hType.symm ▸ ht)
      (hIndex op hOp) (hAvoids op hOp rfl) hExec
  · rw [(Action.localTo now x.1 x.2).frame hExec k hCells]

/-- The actions on a mapped list push one element, or remove one. -/
theorem occurrences_action (hFrom : L.From ops) {x : Bytes × Action}
    (hx : x ∈ planTrace L.plans) (hIndex : ∀ op ∈ ops, op.keyset ≠ some k)
    (hOps : ∀ op ∈ ops, OnElements k op) (hExec : execStep now x ks = .ok ks') :
    occurrences (ks k) v ≤ occurrences (ks' k) v + [x].count (k, .lrem1 v) := by
  by_cases hCells : k ∈ x.2.cells x.1
  · obtain ⟨op, hOp, hKey, hk, z, ha⟩ := opAction_of_cells hFrom hx hIndex hCells
    have hNames := WriteOp.names_of_not_rename ((hOps op hOp).noRename hk)
    have hOwn : op.key = k := by simpa [hNames, eq_comm] using hk
    obtain ⟨y, a⟩ := x
    obtain rfl : y = k := hKey.symm.trans hOwn
    rw [(hOps op hOp).actions_eq hOwn] at ha
    rcases List.mem_append.mp ha with ha | ha
    · unfold WriteOp.listActions at ha
      split at ha
      · cases ha
      · rename_i m _
        split_ifs at ha
        · obtain rfl := List.mem_singleton.mp ha
          have hEffect := exec_lrem1 (k := y) (x := v) hExec
          by_cases hm : v = m
          · subst hm
            simp only [if_true] at hEffect
            simp only [List.count_singleton_self]
            omega
          · rw [hEffect, if_neg hm]
            omega
        · obtain rfl := List.mem_singleton.mp ha
          have hEffect := exec_rpush (k := y) (x := v) hExec
          omega
    · split_ifs at ha
      · exact absurd (by simpa [hOwn] using hCells)
          (keysetActions_cells ha (k := y) (hIndex op hOp))
      · cases ha
  · rw [(Action.localTo now x.1 x.2).frame hExec k hCells]
    omega

theorem occurrences_trace {l : List (Bytes × Action)}
    (hStep : ∀ x ∈ l, ∀ ks ks' : Keyspace, execStep now x ks = .ok ks' →
      occurrences (ks k) v ≤ occurrences (ks' k) v + [x].count (k, .lrem1 v))
    (hRun : run (execStep now) l ks = .ok ks') :
    occurrences (ks k) v ≤ occurrences (ks' k) v + l.count (k, .lrem1 v) := by
  induction l generalizing ks with
  | nil =>
    cases hRun
    simp
  | cons x l ih =>
    obtain ⟨ks₁, hExec, hRest⟩ := run_cons_ok.mp hRun
    rw [List.forall_mem_cons] at hStep
    have hHead := hStep.1 ks ks₁ hExec
    have hTail := ih hStep.2 hRest
    have hSplit : (x :: l).count (k, .lrem1 v) =
        [x].count (k, .lrem1 v) + l.count (k, .lrem1 v) := by
      rw [← List.count_append, List.singleton_append]
    omega

/-- A list loses no more elements of a value than the transaction removes. -/
theorem elements_kept (hFold : foldOps ops .empty = .ok L)
    (hRun : run (execStep now) (planTrace L.plans) ks = .ok ks')
    (hIndex : ∀ op ∈ ops, op.keyset ≠ some k) (hOps : ∀ op ∈ ops, OnElements k op) :
    occurrences (ks k) v ≤ occurrences (ks' k) v + ops.countP (Removes k v) := by
  have hFrom := Ledger.From.foldOps hFold
  have hCount := count_planTrace (v := v) hFold hOps
  have hKept := occurrences_trace (v := v)
    (fun x hx _ _ hExec => occurrences_action hFrom hx hIndex hOps hExec) hRun
  have hStart : (planTrace Ledger.empty.plans).count (k, Action.lrem1 v) = 0 := rfl
  omega

end Trace

/-! ## The theorem -/

/-- The row is in the second keyspace as it is in the first. -/
def SameRow (ks ks' : Keyspace) (r : RowId) : Prop :=
  match r.2 with
  | none => ks' r.1 = ks r.1
  | some m => rowContent (ks' r.1) m = rowContent (ks r.1) m

/-- What has to hold of an UPDATE that moves its row. -/
structure MoveOk (ks : Keyspace) (ops : List WriteOp) (op : WriteOp) : Prop where
  /-- Within its key, the row is not moved onto one that was there and is not named. -/
  start : op.isRename = false → RowPresent ks op.newRow → ¬Unnamed ops op.newRow
  /-- A rename carries no member along that is not named. -/
  carried : op.isRename = true → op.byMember = true → ∀ n ∈ op.names, ∀ m,
    holdsSub (ks n) m = true → ¬Unnamed ops (n, some m)

section Theorem

variable [Doubles] {now : Nat} {ops : List WriteOp} {L : Ledger} {ks ks' : Keyspace} {n : Nat}

variable (hFold : foldOps ops .empty = .ok L)

include hFold

theorem keyRow_kept (hPass : L.Passes ks)
    (hRun : run (execStep now) (planTrace L.plans) ks = .ok ks')
    (hBuffered : ∀ op ∈ ops, op.Buffered) {k : Bytes} (hIndex : ∀ op ∈ ops, op.keyset ≠ some k)
    (hWhole : ∀ op ∈ ops, k ∈ op.names → op.byMember = false) (hPresent : (ks k).isSome)
    (hUnnamed : Unnamed ops (k, none)) : ks' k = ks k := by
  refine key_unchanged (.foldOps hFold) hRun hIndex ?_
  refine untouched_of_unnamed hFold hPass hBuffered hPresent rfl fun op hOp hKind hKey => ?_
  have hNames := (hBuffered op hOp).oldkey_mem_names
  rw [hKey] at hNames
  refine hUnnamed op hOp hKind ?_
  simp [WriteOp.oldRow, hKey, WriteOp.rowMember, hWhole op hOp hNames]

theorem elementRow_kept (hPass : L.Passes ks)
    (hRun : run (execStep now) (planTrace L.plans) ks = .ok ks') {k m : Bytes}
    (hIndex : ∀ op ∈ ops, op.keyset ≠ some k) (hOps : ∀ op ∈ ops, OnElements k op)
    (hTouched : ∃ op ∈ ops, k ∈ op.names) (hHeld : holdsSub (ks k) m = true)
    (hUnnamed : Unnamed ops (k, some m)) : rowContent (ks' k) m = rowContent (ks k) m := by
  have hType : HoldsType .list (ks k) := by
    obtain ⟨op, hOp, hk⟩ := hTouched
    have hKey := (foldOps_covers hFold).names op hOp k hk
    obtain ⟨p, hp⟩ := Option.isSome_iff_exists.mp (Ledger.plan?_isSome.mpr hKey)
    obtain ⟨op', hOp', hk', hType⟩ := (Ledger.From.foldOps hFold).types hp
    have hHolds := (hPass k p hp).1
    rwa [hType, ((hOps op' hOp').type hk').1] at hHolds
  have hStart : 0 < occurrences (ks k) m := by
    obtain ⟨l, hl⟩ := (lists.read_iff _).mpr hType
    rw [occurrences_of_lists hl, List.count_pos_iff]
    exact (holdsSub_of_lists hl m).mp hHeld
  have hNone : ops.countP (Removes k m) = 0 := by
    rw [List.countP_eq_zero]
    intro op hOp hRemoves
    simp only [Removes, Bool.and_eq_true, decide_eq_true_eq] at hRemoves
    obtain ⟨⟨hKind, rfl⟩, hMember⟩ := hRemoves
    obtain ⟨hTab, hPacked⟩ := (hOps op hOp).type List.mem_cons_self
    have hUpd : op.kind ≠ .update := by simp [hKind]
    refine hUnnamed op hOp (by simp [hKind]) ?_
    simp [WriteOp.oldRow, WriteOp.rowMember, WriteOp.byMember, hTab, hPacked, hMember,
      (hOps op hOp).buffered.oldkey hUpd, (hOps op hOp).buffered.oldmember hUpd]
  have hKept := elements_kept (v := m) hFold hRun hIndex hOps
  rw [rowContent_of_occurrences hStart, rowContent_of_occurrences (by omega)]

theorem memberRow_kept (hPass : L.Passes ks)
    (hRun : run (execStep now) (planTrace L.plans) ks = .ok ks')
    (hBuffered : ∀ op ∈ ops, op.Buffered)
    (hMoves : ∀ op ∈ ops, op.kind = .update → op.oldRow ≠ op.newRow → MoveOk ks ops op)
    {k m : Bytes} {t : TableType} (hIndex : ∀ op ∈ ops, op.keyset ≠ some k)
    (hType : ∀ op ∈ ops, k ∈ op.names → op.tabletype = t)
    (hMember : ∀ op ∈ ops, k ∈ op.names → op.byMember = true) (hHeld : holdsSub (ks k) m = true)
    (hUnnamed : Unnamed ops (k, some m)) :
    rowContent (ks' k) m = rowContent (ks k) m := by
  by_cases hTouched : ∃ op ∈ ops, k ∈ op.names
  · have hRow : ∀ op ∈ ops, k ∈ op.names →
        op.packedShape = false ∧ ((t = .set ∨ t = .zset) ∨ t = .list) := by
      intro op hOp hk
      have hRow := hMember op hOp hk
      simp only [WriteOp.byMember, Bool.and_eq_true, Bool.not_eq_true', Bool.or_eq_true,
        decide_eq_true_eq] at hRow
      rwa [hType op hOp hk] at hRow
    have hSame : ∀ op ∈ ops, k ∈ op.names → op.tabletype = t ∧ op.packedShape = false :=
      fun op hOp hk => ⟨hType op hOp hk, (hRow op hOp hk).1⟩
    obtain ⟨op₀, hOp₀, hk₀⟩ := hTouched
    rcases (hRow op₀ hOp₀ hk₀).2 with ht | hList
    · have hNoRename : ∀ op ∈ ops, k ∈ op.names → op.isRename = false := by
        intro op hOp hk
        rw [Bool.eq_false_iff]
        intro hRen
        obtain ⟨hKind, old, hOld, hne⟩ := WriteOp.isRename_iff.mp hRen
        have hMove : op.oldRow ≠ op.newRow := by
          simp [WriteOp.oldRow, WriteOp.newRow, hOld, hne]
        exact (hMoves op hOp hKind hMove).carried hRen (hMember op hOp hk) k hk m hHeld hUnnamed
      have hNoMove : ∀ op ∈ ops, op.key = k → op.kind = .update → op.member = some m →
          op.oldmember.getD m = m := by
        rintro op hOp rfl hKind hm
        by_contra hne
        have hk : op.key ∈ op.names := List.mem_cons_self
        have hNew : op.newRow = (op.key, some m) := by
          simp [WriteOp.newRow, WriteOp.rowMember, hMember op hOp hk, hm]
        have hOld : op.oldRow = (op.key, some (op.oldmember.getD m)) := by
          simp [WriteOp.oldRow, WriteOp.rowMember, hMember op hOp hk, hm,
            (hBuffered op hOp).oldkey_eq (hNoRename op hOp hk)]
        have hMove : op.oldRow ≠ op.newRow := by
          rw [hOld, hNew]
          simpa using hne
        have hStart := (hMoves op hOp hKind hMove).start (hNoRename op hOp hk)
        rw [hNew] at hStart
        exact hStart hHeld hUnnamed
      have hOps : ∀ op ∈ ops, OnMembers t k m op := fun op hOp =>
        ⟨hBuffered op hOp, hSame op hOp, hNoRename op hOp, hNoMove op hOp⟩
      have hAvoids := avoids_of_unnamed ht hFold hPass hOps .empty
        (fun p hp => by simp [Ledger.plan?, Ledger.empty] at hp) rfl hHeld hUnnamed
      exact member_unchanged ht (.foldOps hFold) hRun hIndex hOps hAvoids
    · subst hList
      exact elementRow_kept hFold hPass hRun hIndex (fun op hOp => ⟨hBuffered op hOp, hSame op hOp⟩)
        ⟨op₀, hOp₀, hk₀⟩ hHeld hUnnamed
  · rw [key_unchanged (.foldOps hFold) hRun hIndex fun op hOp hk => hTouched ⟨op, hOp, hk⟩]

/-- An UPDATE that finds its own row, and a live one where it moves it, is refused exactly
if it renames to a key that the transaction has not touched. -/
theorem move_refused_iff (hPass : L.Passes ks) {op : WriteOp} {cur : Keyspace}
    (hCur : execOps now ops ks = .ok cur) (hKind : op.kind = .update) (hSupported : op.Supported)
    (hTables : ∀ o ∈ ops, op.key ∈ o.names → o.tabletype = op.tabletype)
    (hTypes : ∀ n ∈ op.names, HoldsType op.tabletype.valueType (ks n))
    (hIndex : ∀ o ∈ ops, ∀ n ∈ op.names, o.keyset ≠ some n)
    (hWrite : WriteOk ks op (L.startPlan op).state L.members) (hOld : RowPresent cur op.oldRow)
    (hNew : RowPresent cur op.newRow) :
    (∀ L', note op L = .ok L' → ¬L'.Passes ks) ↔
      op.isRename = true ∧ ∀ o ∈ ops, op.key ∉ o.names := by
  -- A key that no operation has named is as it was.
  have hFrame : ∀ n ∈ op.names, L.plan? n = none → cur n = ks n := by
    intro n hn hNone
    refine run_frame (g := fun ks : Keyspace => ks n) (fun o ho _ _ hExec => ?_) hCur
    exact WriteOp.exec_frame hExec ((foldOps_plan? hFold).mp hNone o ho) (hIndex o ho n hn)
  have hEntry : (L.entry op.key op.tabletype).ttype = op.tabletype := by
    unfold Ledger.entry
    cases hPlan : L.plan? op.key with
    | none => rfl
    | some p =>
      obtain ⟨o, ho, hk, hType⟩ := (Ledger.From.foldOps hFold).types hPlan
      exact hType.trans (hTables o ho hk)
  have hLive : (cur op.key).isSome := hNew.key
  have hNote : NoteOk ks L op ↔ ¬(op.isRename = true ∧ L.plan? op.key = none) := by
    constructor
    · rintro hOk ⟨hRen, hNone⟩
      have hAbsent := (hOk.target hNone).1 (.inr hRen)
      rw [hFrame op.key List.mem_cons_self hNone, hAbsent] at hLive
      cases hLive
    · intro hNot
      refine ⟨fun hNone => ⟨?_, fun _ => ?_⟩, fun old hRen hOldKey hNone => ?_, ?_, hWrite⟩
      · rintro (hIns | hRen)
        · simp [hKind] at hIns
        · exact absurd ⟨hRen, hNone⟩ hNot
      · exact hFrame op.key List.mem_cons_self hNone ▸ hLive
      · rw [← hFrame old (by simp [WriteOp.names, hRen, hOldKey]) hNone]
        simpa [WriteOp.oldRow, hOldKey] using hOld.key
      · intro hIns
        simp [hKind] at hIns
  have hAccepted := note_passes_iff ks L hSupported hEntry hTypes
  rw [and_iff_right hPass, hNote] at hAccepted
  rw [← foldOps_plan? hFold, ← not_iff_not, ← hAccepted]
  push Not
  rfl

omit hFold

/-- A committed transaction keeps every row that it does not name if each UPDATE that moves
a row meets `MoveOk`, and always the elements of a list that it does not delete. An UPDATE that
moves its row onto a live one is refused exactly if it renames to a key that the
transaction has not touched. -/
theorem no_row_lost (hFold : foldOps ops .empty = .ok L)
    (hOk : runProgram now L.plans ks = (.ok n, ks')) (hBuffered : ∀ op ∈ ops, op.Buffered) :
    ((∀ op ∈ ops, op.kind = .update → op.oldRow ≠ op.newRow → MoveOk ks ops op) →
      ∀ (r : RowId) (t : TableType), (∀ op ∈ ops, op.keyset ≠ some r.1) →
        (∀ op ∈ ops, r.1 ∈ op.names → op.byMember = r.2.isSome ∧ (r.2.isSome → op.tabletype = t)) →
        RowPresent ks r → Unnamed ops r → SameRow ks ks' r) ∧
    (∀ k v, (∀ op ∈ ops, op.keyset ≠ some k) →
      (∀ op ∈ ops, k ∈ op.names → op.tabletype = .list ∧ op.packedShape = false) →
      occurrences (ks k) v ≤ occurrences (ks' k) v + ops.countP (Removes k v)) ∧
    ∀ op cur, execOps now ops ks = .ok cur → op.kind = .update → op.Supported →
      (∀ o ∈ ops, op.key ∈ o.names → o.tabletype = op.tabletype) →
      (∀ n ∈ op.names, HoldsType op.tabletype.valueType (ks n)) →
      (∀ o ∈ ops, ∀ n ∈ op.names, o.keyset ≠ some n) →
      WriteOk ks op (L.startPlan op).state L.members →
      RowPresent cur op.oldRow → RowPresent cur op.newRow →
      ((∀ L', note op L = .ok L' → ¬L'.Passes ks) ↔
        op.isRename = true ∧ ∀ o ∈ ops, op.key ∉ o.names) := by
  obtain ⟨-, hPass, hRun⟩ := runProgram_ok.mp hOk
  rw [← Ledger.passes_iff] at hPass
  refine ⟨?_, ?_, ?_⟩
  · rintro hMoves ⟨k, _ | m⟩ t hIndex hRows hPresent hUnnamed
    · exact keyRow_kept hFold hPass hRun hBuffered hIndex (fun op hOp hk => (hRows op hOp hk).1)
        hPresent hUnnamed
    · exact memberRow_kept hFold hPass hRun hBuffered hMoves hIndex
        (fun op hOp hk => (hRows op hOp hk).2 rfl) (fun op hOp hk => (hRows op hOp hk).1) hPresent
        hUnnamed
  · intro k v hIndex hList
    exact elements_kept hFold hRun hIndex fun op hOp => ⟨hBuffered op hOp, hList op hOp⟩
  · intro op cur hCur hKind hSupported hTables hTypes hIndex hWrite hOld hNew
    exact move_refused_iff hFold hPass hCur hKind hSupported hTables hTypes hIndex hWrite hOld hNew

end Theorem

def twoScores : Keyspace :=
  Function.update (fun _ => none) [0x7a]
    (some (.zset ⟨(Finmap.singleton [0x6d] [0x31]).insert [0x6e] [0x32], by decide⟩))

/-- One member of a sorted set takes another name. -/
def moveMember (target : Bytes) : List WriteOp :=
  [{ kind := .update, relid := 1, tabletype := .zset, key := [0x7a], oldkey := some [0x7a],
     member := some target, oldmember := some [0x6d], score := some [0x35] }]

theorem no_row_lost_moveMember : letI := integerScores
    ∃ L ks', foldOps (moveMember [0x70]) .empty = .ok L ∧
      runProgram 0 L.plans twoScores = (.ok 1, ks') ∧
      SameRow twoScores ks' ([0x7a], some [0x6e]) := by
  let _ := integerScores
  obtain ⟨L, ks', hFold, hOk⟩ : ∃ L ks', foldOps (moveMember [0x70]) .empty = .ok L ∧
      runProgram 0 L.plans twoScores = (.ok 1, ks') := ⟨_, _, rfl, rfl⟩
  refine ⟨L, ks', hFold, hOk, (no_row_lost hFold hOk (by decide)).1 ?_ _ .zset (by decide)
    (by decide) (by decide) (by decide)⟩
  intro op hOp _ _
  obtain rfl := List.mem_singleton.mp hOp
  exact ⟨by decide, fun hRen => absurd hRen (by decide)⟩

/-- The member that was there under the new name is overwritten. -/
theorem member_overwritten : letI := integerScores
    ∃ L ks', foldOps (moveMember [0x6e]) .empty = .ok L ∧
      runProgram 0 L.plans twoScores = (.ok 1, ks') ∧
      RowPresent twoScores ([0x7a], some [0x6e]) ∧
      Unnamed (moveMember [0x6e]) ([0x7a], some [0x6e]) ∧
      rowContent (twoScores [0x7a]) [0x6e] = (true, some [0x32]) ∧
      rowContent (ks' [0x7a]) [0x6e] = (true, some [0x35]) := by
  refine ⟨_, _, rfl, rfl, by decide, by decide, by decide, ?_⟩
  decide

end ValkeyFdw
