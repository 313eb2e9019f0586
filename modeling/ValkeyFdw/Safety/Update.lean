import ValkeyFdw.Refine.Contents
import ValkeyFdw.Table.Render

/-!
# What an UPDATE changes besides what it assigns

The rendered row of an UPDATE carries every mapped column, the unassigned ones
with the value the statement read. The flush writes them all, so a field or a
score that the statement does not assign keeps the value it has at flush time
exactly when the row still carries that value
(`update_changes_only_assigned`). A change another client made in between is
undone otherwise (`unassigned_field_reverted`).
-/

namespace ValkeyFdw

open Server Trace

/-! ## Statements -/

/-- An UPDATE of the table: the places of the assigned columns, and each row as
the statement read it with the row it becomes. -/
structure UpdateStatement (m : TableMap) where
  stamp : Stamp
  assigned : List Nat
  rows : List (Row × Row)
  widths : ∀ r ∈ rows, r.1.length = m.cols.length ∧ r.2.length = m.cols.length
  unassigned : ∀ r ∈ rows, ∀ i, i ∉ assigned → r.2[i]? = r.1[i]?

namespace UpdateStatement

variable {m : TableMap} (S : UpdateStatement m)

/-- The operations the statement buffers, one for each row. -/
def ops [Doubles] : Except RowError (List WriteOp) :=
  S.rows.mapM fun r => m.update S.stamp r.1 r.2

/-- The statement assigns a column that satisfies `p`. -/
def Assigns (p : Column → Prop) : Prop := ∃ i ∈ S.assigned, ∃ c, m.cols[i]? = some c ∧ p c

/-- The statement leaves the field or member `x` of a row that is a whole key
alone: it assigns no column of that field, nor the packed column. -/
def Leaves (x : Bytes) : Prop :=
  if m.legacyValue then ¬S.Assigns (·.kind = .legacyValue)
  else ¬S.Assigns fun c => c.kind = .field ∧ c.field = x

/-- Every field the statement leaves alone has the value it had before the flush. -/
def FieldsKept (ops : List WriteOp) (ks ks' : Keyspace) : Prop :=
  ∀ op ∈ ops, ∀ x, S.Leaves x → subValue (ks' op.key) x = subValue (ks op.source) x

/-- Every other member of the keys has the value it had, and every row has the
score it had unless the statement assigns it. -/
structure MembersKept (ops : List WriteOp) (ks ks' : Keyspace) : Prop where
  others : ∀ op ∈ ops, ∀ k ∈ op.names, ∀ x,
    (∀ o ∈ ops, o.newRow ≠ (k, some x) ∧ o.oldRow ≠ (k, some x)) →
      subValue (ks' k) x = subValue (ks k) x
  scores : m.tabletype = .zset → ¬S.Assigns (·.kind = .score) → ∀ op ∈ ops, ∀ x,
    op.member = some x → subValue (ks' op.key) x = subValue (ks op.source) (op.oldmember.getD x)

/-- The flush changes only what the statement assigns. -/
def OnlyAssigned (ops : List WriteOp) (ks ks' : Keyspace) : Prop :=
  if m.wantMember then S.MembersKept ops ks ks' else S.FieldsKept ops ks ks'

/-- Whatever the rows write to a field the statement leaves alone is its value at flush time. -/
def FieldsCurrent [Doubles] (ops : List WriteOp) (ks : Keyspace) : Prop :=
  ∀ op ∈ ops, ∀ x, S.Leaves x → ∀ w, written ops op.key x = some w → w = subValue (ks op.source) x

/-- A row that changes its key is the only one of its old key, and the score
written for a row is its score at flush time unless the statement assigns it. -/
structure MembersCurrent [Doubles] (ops : List WriteOp) (ks : Keyspace) : Prop where
  alone : ∀ op ∈ ops, op.isRename = true → ∀ x, op.oldmember ≠ some x →
    subValue (ks op.source) x = none
  scores : m.tabletype = .zset → ¬S.Assigns (·.kind = .score) → ∀ op ∈ ops, ∀ x,
    op.member = some x → ∀ w, written ops op.key x = some w →
      w = subValue (ks op.source) (op.oldmember.getD x)

/-- What a row carries for the columns it does not assign is what is stored. -/
def Current [Doubles] (ops : List WriteOp) (ks : Keyspace) : Prop :=
  if m.wantMember then S.MembersCurrent ops ks else S.FieldsCurrent ops ks

end UpdateStatement

/-- An operation of an UPDATE of the table. -/
structure UpdateOf (m : TableMap) (op : WriteOp) : Prop extends op.IsUpdate where
  tabletype : op.tabletype = m.tabletype
  shape : op.packedShape = m.legacyValue
  members : m.wantMember = true → ∃ x old, op.member = some x ∧ op.oldmember = some old

theorem renderRequired_isSome {render : Column → Datum → Except RowError Bytes} {slot : Option Slot}
    {b : Option Bytes} (h : renderRequired render slot = .ok b) (hSlot : slot.isSome) :
    b.isSome := by
  rcases slot with _ | ⟨c, _ | d⟩
  · cases hSlot
  · cases h
  · simp only [renderRequired] at h
    cases hRender : render c d with
    | error e => simp [hRender, Functor.map, Except.map] at h
    | ok v =>
      rw [hRender] at h
      cases h
      rfl

/-- The identity of a scanned row names a member where the table's rows are members. -/
theorem TableMap.oldMember_isSome {m : TableMap} {old : Row} {om : Option Bytes}
    (hWant : m.wantMember = true) (h : m.oldMember old = .ok om) :
    om.isSome ∧ (m.slot .member old).isSome := by
  rw [oldMember, if_pos hWant] at h
  cases hSlot : m.slot .member old with
  | none => simp [hSlot, renderOld, Functor.map, Except.map] at h
  | some slot =>
    cases hOld : renderOld .noMemberColumn (some slot) with
    | error e => simp [hSlot, hOld, Functor.map, Except.map] at h
    | ok b =>
      rw [hSlot, hOld] at h
      cases h
      exact ⟨rfl, rfl⟩

section Ops

variable [Doubles] {m : TableMap}

theorem UpdateOf.of_update {stamp : Stamp} {old new : Row} {op : WriteOp}
    (hType : m.tabletype = .hash ∨ m.tabletype = .set ∨ m.tabletype = .zset)
    (hOld : old.length = m.cols.length) (hNew : new.length = m.cols.length)
    (h : m.update stamp old new = .ok op) : UpdateOf m op := by
  obtain ⟨op₀, k, om, hRender, -, hMember, rfl⟩ := TableMap.update_spec h
  refine ⟨⟨hRender.kind_eq, by rw [hRender.tabletype]; exact hType, ?_⟩, hRender.tabletype,
    hRender.shape, fun hWant => ?_⟩
  · by_cases hHash : m.legacyValue = false ∧ m.tabletype = .hash
    · exact renderTtls_ne_zero (hRender.ttls hHash.1 hHash.2)
    · have hNone : op₀.ttls = [] := hRender.noTtls (by
        rw [not_and_or, Bool.not_eq_false] at hHash
        exact hHash)
      simp [hNone]
  · obtain ⟨hSome, hSlot⟩ := TableMap.oldMember_isSome hWant hMember
    have hSlot' : (m.slot .member new).isSome :=
      (TableMap.slot_isSome hNew).mpr ((TableMap.slot_isSome hOld).mp hSlot)
    obtain ⟨x, hx⟩ := Option.isSome_iff_exists.mp (renderRequired_isSome hRender.member hSlot')
    obtain ⟨y, hy⟩ := Option.isSome_iff_exists.mp hSome
    exact ⟨x, y, hx, hy⟩

theorem UpdateStatement.updateOf {S : UpdateStatement m} {ops : List WriteOp}
    (hType : m.tabletype = .hash ∨ m.tabletype = .set ∨ m.tabletype = .zset)
    (hOps : S.ops = .ok ops) : ∀ op ∈ ops, UpdateOf m op := by
  intro op hOp
  obtain ⟨r, hr, hUpdate⟩ := exists_of_mapM_ok hOps hOp
  exact .of_update hType (S.widths r hr).1 (S.widths r hr).2 hUpdate

end Ops

/-! ## The flush of a statement -/

variable {ops : List WriteOp}

theorem Separate.inOrder (hSep : Separate ops) :
    Along note InOrder ops .empty := by
  refine Ledger.From.along_done fun done op rest hOps L hL => ?_
  have hDone : ∀ o ∈ done, o ∈ ops := fun o ho => by simp [hOps, ho]
  have hOp : op ∈ ops := by simp [hOps]
  have hRenames := hSep.renames
  rw [hOps, List.pairwise_append] at hRenames
  refine hL.inOrder (fun o ho hne n hn hn' => ?_)
    (fun o ho => hSep.index op hOp o (hDone o ho)) fun o ho => hSep.index o (hDone o ho) op hOp
  by_cases hRen : o.isRename = true ∨ op.isRename = true
  · exact hRenames.2.2 o ho op List.mem_cons_self hRen n hn hn'
  · rw [not_or, Bool.not_eq_true, Bool.not_eq_true] at hRen
    rw [WriteOp.names_of_not_rename hRen.1, List.mem_singleton] at hn
    rw [WriteOp.names_of_not_rename hRen.2, List.mem_singleton] at hn'
    exact hne (hn.symm.trans hn')

/-- The new key of a renamed row holds nothing before the flush. -/
theorem Separate.target_absent {L : Ledger} {ks : Keyspace} (hSep : Separate ops)
    (hFold : foldOps ops .empty = .ok L) (hPass : L.Passes ks) {op : WriteOp} (hOp : op ∈ ops)
    (hRen : op.isRename = true) :
    ks op.key = none := by
  obtain ⟨pre, post, hSplit⟩ := List.append_of_mem hOp
  have hRenames := hSep.renames
  rw [hSplit, List.pairwise_append] at hRenames
  refine created_absent hFold hPass hSplit (.inr hRen) fun o ho hn => ?_
  exact hRenames.2.2 o ho op List.mem_cons_self (.inr hRen) op.key hn List.mem_cons_self

theorem Separate.rename_unique (hSep : Separate ops) {op o : WriteOp} (hOp : op ∈ ops)
    (ho : o ∈ ops) (hRen : op.isRename = true) {k : Bytes} (hk : k ∈ op.names) (hk' : k ∈ o.names) :
    o = op := by
  by_contra hne
  have : Std.Symm fun op op' : WriteOp =>
      op.isRename = true ∨ op'.isRename = true → ∀ n ∈ op.names, n ∉ op'.names :=
    ⟨fun a b h hRen n hn hn' => h hRen.symm n hn' hn⟩
  exact hSep.renames.forall ho hOp hne (.inr hRen) k hk' hk

theorem UpdateOf.rows {m : TableMap} {op : WriteOp} (h : UpdateOf m op) (hWant : m.wantMember = true)
    {x old : Bytes} (hx : op.member = some x) (hOld : op.oldmember = some old) :
    op.newRow = (op.key, some x) ∧ op.oldRow = (op.source, some old) := by
  have hRow : op.byMember = true := by
    simp only [TableMap.wantMember, Bool.and_eq_true, Bool.or_eq_true] at hWant
    simp only [WriteOp.byMember, h.shape, h.tabletype, Bool.and_eq_true, Bool.or_eq_true]
    tauto
  simp [WriteOp.newRow, WriteOp.oldRow, WriteOp.rowMember, hRow, hx, hOld, WriteOp.source]

section Flush

variable [Doubles] {now : Nat} {m : TableMap} {ops : List WriteOp} {L : Ledger}
  {ks ks' : Keyspace} {n : Nat}

theorem UpdateOf.execOps (hOps : ∀ op ∈ ops, UpdateOf m op) (hOrder : Along note InOrder ops .empty)
    (hFold : foldOps ops .empty = .ok L) (hOk : runProgram now L.plans ks = (.ok n, ks')) :
    execOps now ops ks = .ok ks' := by
  have hZset := along_zsetAgrees fun op hOp o ho _ =>
    (hOps o ho).tabletype.trans (hOps op hOp).tabletype.symm
  exact execOps_of_runProgram hFold (hOrder.and hZset) hOk

variable {op : WriteOp} {x : Bytes}

/-- What an UPDATE of a member writes: the new member, and nothing for the old one. -/
theorem UpdateOf.writes (h : UpdateOf m op) (hWant : m.wantMember = true) {y : Bytes}
    (hx : op.member = some x) :
    op.writes y =
      if y = x then some (if m.tabletype = .zset then Doubles.canon (op.score.getD [0x30])
        else some [])
      else if y = op.oldmember.getD x then some none
      else none := by
  have hMapped : op.packedShape = false := by
    rw [h.shape]
    simp only [TableMap.wantMember, Bool.and_eq_true, Bool.not_eq_true'] at hWant
    exact hWant.1
  have hType : op.tabletype = .set ∨ op.tabletype = .zset := by
    refine h.type.resolve_left fun hHash => ?_
    rw [h.tabletype] at hHash
    simp [TableMap.wantMember, hHash] at hWant
  have hActions : op.writeActions (op.tabletype = .zset) =
      op.memberActions (op.tabletype = .zset) := by
    have hDel : op.deletesKey = false := by simp [WriteOp.deletesKey, h.kind]
    rcases hType with hType | hType <;>
      simp [WriteOp.writeActions, hDel, hMapped, h.kind, WriteOp.shapeActions, hType]
  rw [← h.tabletype, WriteOp.writes, hActions, WriteOp.memberActions, hx]
  dsimp only
  rw [if_neg (by simp [h.kind])]
  by_cases hMove : op.oldmember.getD x = x
  · rw [if_neg (by simp [hMove]), hMove]
    by_cases hZset : op.tabletype = .zset <;> by_cases hy : y = x <;>
      simp [lastWrite, addMember, hZset, Action.writes, hy]
  · rw [if_pos ⟨h.kind, hMove⟩]
    by_cases hZset : op.tabletype = .zset <;> by_cases hy : y = x <;>
      simp [lastWrite, addMember, remMember, hZset, Action.writes, hy]

theorem UpdateOf.written_isSome (hOps : ∀ op ∈ ops, UpdateOf m op) (hWant : m.wantMember = true)
    (hOp : op ∈ ops) (hx : op.member = some x) :
    ∃ w, written ops op.key x = some w := by
  refine Option.ne_none_iff_exists'.mp fun hNone => ?_
  have hOwn := lastWrite_eq_none.mp hNone op hOp
  simp [(hOps op hOp).writes hWant hx] at hOwn

variable {S : UpdateStatement m}

variable (hOps : ∀ op ∈ ops, UpdateOf m op)

include hOps

theorem fieldsKept_iff (hChain : Chained ops) (hExec : execOps now ops ks = .ok ks') :
    S.FieldsKept ops ks ks' ↔ S.FieldsCurrent ops ks := by
  refine forall₂_congr fun op hOp => forall₂_congr fun x _ => ?_
  rw [execOps_subValue (fun o ho => (hOps o ho).toIsUpdate) hChain hExec hOp]
  cases written ops op.key x <;> simp

/-- Where no row leaves its key, a name that belongs to no row is not written. -/
theorem UpdateOf.written_eq_none (hWant : m.wantMember = true) {k : Bytes}
    (hStay : ∀ o ∈ ops, o.key = k → o.isRename = false)
    (hx : ∀ o ∈ ops, o.newRow ≠ (k, some x) ∧ o.oldRow ≠ (k, some x)) :
    written ops k x = none := by
  refine lastWrite_eq_none.mpr fun o ho => ?_
  by_cases hKey : o.key = k
  · obtain ⟨y, old, hy, hOld⟩ := (hOps o ho).members hWant
    obtain ⟨hNew, hOldRow⟩ := (hOps o ho).rows hWant hy hOld
    have hSource := (hOps o ho).source_eq (hStay o ho hKey)
    obtain ⟨hne, hne'⟩ := hx o ho
    rw [hNew, hKey] at hne
    rw [hOldRow, hSource, hKey] at hne'
    rw [if_pos hKey, (hOps o ho).writes hWant hy, if_neg (by rintro rfl; exact hne rfl), hOld,
      if_neg (by rintro rfl; exact hne' rfl)]
  · exact if_neg hKey

/-- The members that belong to no row of the statement are unchanged, if a row
that leaves its key is the only one there. -/
theorem others_kept (hWant : m.wantMember = true) (hSep : Separate ops)
    (hFold : foldOps ops .empty = .ok L) (hPass : L.Passes ks)
    (hExec : execOps now ops ks = .ok ks') (hOp : op ∈ ops)
    (hAlone : op.isRename = true → ∀ x, op.oldmember ≠ some x → subValue (ks op.source) x = none)
    {k : Bytes} (hk : k ∈ op.names)
    (hx : ∀ o ∈ ops, o.newRow ≠ (k, some x) ∧ o.oldRow ≠ (k, some x)) :
    subValue (ks' k) x = subValue (ks k) x := by
  have hUpdates : ∀ op ∈ ops, op.IsUpdate := fun op hOp => (hOps op hOp).toIsUpdate
  have hAfter := execOps_subValue (x := x) hUpdates hSep.chained hExec hOp
  obtain ⟨y, old, hy, hOld⟩ := (hOps op hOp).members hWant
  obtain ⟨hNew, hOldRow⟩ := (hOps op hOp).rows hWant hy hOld
  obtain ⟨hne, hne'⟩ := hx op hOp
  rw [hNew] at hne
  rw [hOldRow] at hne'
  by_cases hRen : op.isRename = true
  · rcases WriteOp.mem_names hk with rfl | ⟨-, hOldkey⟩
    · have hxy : x ≠ y := by
        rintro rfl
        exact hne rfl
      rw [hAfter, hSep.target_absent hFold hPass hOp hRen]
      cases hw : written ops op.key x with
      | none =>
        refine hAlone hRen x fun hOldx => ?_
        -- The old member would have been removed under the new key.
        have hOwn := lastWrite_eq_none.mp hw op hOp
        rw [if_pos rfl, (hOps op hOp).writes hWant hy, if_neg hxy, hOldx] at hOwn
        simp at hOwn
      | some w =>
        obtain ⟨o, ho, hWrites⟩ := exists_of_lastWrite hw
        have hKey : o.key = op.key := by
          by_contra hKey
          simp [hKey] at hWrites
        obtain rfl := hSep.rename_unique hOp ho hRen (k := op.key) List.mem_cons_self
          (hKey ▸ List.mem_cons_self)
        rw [if_pos rfl, (hOps o ho).writes hWant hy, if_neg hxy] at hWrites
        split at hWrites
        · cases hWrites
          rfl
        · cases hWrites
    · have hSource : op.source = k := by simp [WriteOp.source, hOldkey]
      rw [hSource] at hne'
      rw [← hSource, execOps_source hUpdates hSep hExec hOp hRen]
      refine (hAlone hRen x fun hOldx => hne' ?_).symm
      rw [← hOld, hOldx]
  · have hStay : op.isRename = false := by simpa using hRen
    rw [WriteOp.names_of_not_rename hStay, List.mem_singleton] at hk
    subst hk
    have hNone : written ops op.key x = none := by
      refine UpdateOf.written_eq_none hOps hWant (fun o ho hKey => ?_) hx
      by_contra hRen'
      rw [Bool.not_eq_false] at hRen'
      obtain rfl := hSep.rename_unique ho hOp hRen' (k := o.key) List.mem_cons_self
        (hKey ▸ List.mem_cons_self)
      exact hRen hRen'
    rw [hAfter, hNone, (hUpdates op hOp).source_eq hStay]
    rfl

/-- If the other members of the keys are unchanged, a row that leaves its key was
the only one there. -/
theorem alone_of_others (hWant : m.wantMember = true) (hSep : Separate ops)
    (hExec : execOps now ops ks = .ok ks') (hOthers : ∀ op ∈ ops, ∀ k ∈ op.names, ∀ x,
      (∀ o ∈ ops, o.newRow ≠ (k, some x) ∧ o.oldRow ≠ (k, some x)) →
        subValue (ks' k) x = subValue (ks k) x) (hOp : op ∈ ops) (hRen : op.isRename = true)
    (hx : op.oldmember ≠ some x) : subValue (ks op.source) x = none := by
  have hUpdates : ∀ op ∈ ops, op.IsUpdate := fun op hOp => (hOps op hOp).toIsUpdate
  have hGone := execOps_source hUpdates hSep hExec hOp hRen
  have hSource := (hUpdates op hOp).source_mem
  have hUnnamed : ∀ o ∈ ops, o.newRow ≠ (op.source, some x) ∧ o.oldRow ≠ (op.source, some x) := by
    intro o ho
    obtain ⟨y, old, hy, hOld⟩ := (hOps o ho).members hWant
    obtain ⟨hNew, hOldRow⟩ := (hOps o ho).rows hWant hy hOld
    rw [hNew, hOldRow]
    refine ⟨fun hEq => ?_, fun hEq => ?_⟩
    · have hKey : o.key = op.source := congrArg Prod.fst hEq
      obtain rfl := hSep.rename_unique hOp ho hRen hSource (hKey ▸ List.mem_cons_self)
      obtain ⟨-, old', hOld', hne⟩ := WriteOp.isRename_iff.mp hRen
      exact hne (by simpa [WriteOp.source, hOld'] using hKey.symm)
    · have hKey : o.source = op.source := congrArg Prod.fst hEq
      obtain rfl := hSep.rename_unique hOp ho hRen hSource (hKey ▸ (hUpdates o ho).source_mem)
      exact hx (hOld.trans (congrArg Prod.snd hEq))
  rw [← hOthers op hOp op.source hSource x hUnnamed, hGone]
  rfl

theorem membersKept_iff (hWant : m.wantMember = true) (hSep : Separate ops)
    (hFold : foldOps ops .empty = .ok L) (hPass : L.Passes ks)
    (hExec : execOps now ops ks = .ok ks') :
    S.MembersKept ops ks ks' ↔ S.MembersCurrent ops ks := by
  have hAfter : ∀ {op x}, op ∈ ops →
      subValue (ks' op.key) x = (written ops op.key x).getD (subValue (ks op.source) x) :=
    execOps_subValue (fun op hOp => (hOps op hOp).toIsUpdate) hSep.chained hExec
  constructor
  · rintro ⟨hOthers, hScores⟩
    refine ⟨fun op hOp hRen x => alone_of_others hOps hWant hSep hExec hOthers hOp hRen,
      fun hZset hLeaves op hOp x hx w hw => ?_⟩
    rw [← hScores hZset hLeaves op hOp x hx, hAfter hOp, hw]
    rfl
  · rintro ⟨hAlone, hScores⟩
    refine ⟨fun op hOp k hk x => others_kept hOps hWant hSep hFold hPass hExec hOp
      (hAlone op hOp) hk, fun hZset hLeaves op hOp x hx => ?_⟩
    obtain ⟨w, hw⟩ := UpdateOf.written_isSome hOps hWant hOp hx
    rw [hAfter hOp, hw, Option.getD_some]
    exact hScores hZset hLeaves op hOp x hx w hw

omit hOps

/-- A statement that does not assign the key leaves every row where it is. -/
theorem UpdateStatement.separate (hValid : m.Valid) (hOps : S.ops = .ok ops)
    (hKey : ¬S.Assigns (·.kind = .key)) : Separate ops := by
  have hStay : ∀ op ∈ ops, op.isRename = false ∧ op.keyset = m.keyset ∧
      m.keyset ≠ some op.key := by
    intro op hOp
    obtain ⟨r, hr, hUpdate⟩ := exists_of_mapM_ok hOps hOp
    obtain ⟨op₀, k, om, hRender, hOld, -, rfl⟩ := TableMap.update_spec hUpdate
    have hWidths := S.widths r hr
    have hSlot : m.slot .key r.1 = m.slot .key r.2 :=
      TableMap.slot_congr (hWidths.1.trans hWidths.2.symm) fun i c hc hKind =>
        (S.unassigned r hr i fun hi => hKey ⟨i, hi, c, hc, hKind⟩).symm
    have hSame := TableMap.oldKey_of_buildKey hSlot hRender.key hOld
    exact ⟨by simp [WriteOp.isRename, hSame], hRender.keyset,
      TableMap.buildKey_ne_keyset hValid hRender.key⟩
  constructor
  · intro op hOp op' hOp' k hk
    rw [WriteOp.names_of_not_rename (hStay op' hOp').1, List.mem_singleton] at hk
    rw [(hStay op hOp).2.1, hk]
    exact (hStay op' hOp').2.2
  · refine List.pairwise_of_forall_mem_list fun op hOp op' hOp' hRen => ?_
    simp [(hStay op hOp).1, (hStay op' hOp').1] at hRen

/-- An UPDATE changes only what it assigns exactly when whatever its rows carry
for the rest is still current. For a statement that assigns the key, a row whose
key changes shares its names with no other row; where a row is a whole key it may also
take over a name that an earlier row has given up, as long as the fold keeps their order. -/
theorem update_changes_only_assigned {t : TableDef} (hMap : mapBuild t = .ok m)
    (hType : m.tabletype = .hash ∨ m.tabletype = .set ∨ m.tabletype = .zset)
    (hOps : S.ops = .ok ops)
    (hKeys : S.Assigns (·.kind = .key) → Separate ops ∨
      m.wantMember = false ∧ Chained ops ∧ Along note InOrder ops .empty)
    (hFold : foldOps ops .empty = .ok L) (hOk : runProgram now L.plans ks = (.ok n, ks')) :
    S.OnlyAssigned ops ks ks' ↔ S.Current ops ks := by
  have hUpdates := S.updateOf hType hOps
  have hRows : Separate ops ∨ m.wantMember = false ∧ Chained ops ∧ Along note InOrder ops .empty := by
    by_cases hKey : S.Assigns (·.kind = .key)
    · exact hKeys hKey
    · exact .inl (S.separate (mapBuild_valid hMap) hOps hKey)
  have hExec := UpdateOf.execOps hUpdates (hRows.elim (·.inOrder) (·.2.2)) hFold hOk
  have hPass : L.Passes ks := L.passes_iff.mpr (runProgram_ok.mp hOk).2.1
  unfold UpdateStatement.OnlyAssigned UpdateStatement.Current
  by_cases hWant : m.wantMember = true
  · rw [if_pos hWant, if_pos hWant]
    have hSep := hRows.resolve_right fun h => by simp [hWant] at h
    exact membersKept_iff hUpdates hWant hSep hFold hPass hExec
  · rw [if_neg hWant, if_neg hWant]
    exact fieldsKept_iff hUpdates (hRows.elim (·.chained) (·.2.1)) hExec

end Flush

/-! ## A hash table with two fields -/

def profileDef : TableDef where
  relid := 1
  tabletype := .hash
  columns := [{ key := true }, { field := some [0x61] }, { field := some [0x62] }]

def profile : TableMap where
  relid := 1
  cols := [⟨true, .key, none, .other, false⟩, ⟨true, .field, some [0x61], .other, false⟩,
    ⟨true, .field, some [0x62], .other, false⟩]
  tabletype := .hash
  keyprefix := none
  keyset := none
  singletonKey := none
  searchIndex := none
  legacyValue := false
  readonly := false

/-- `UPDATE profile SET a = '9'` of the row `('h', '1', '2')`. -/
def assignFirst : UpdateStatement profile where
  stamp := ⟨1, 1⟩
  assigned := [1]
  rows := [([some (.scalar [0x68]), some (.scalar [0x31]), some (.scalar [0x32])],
    [some (.scalar [0x68]), some (.scalar [0x39]), some (.scalar [0x32])])]
  widths := by decide
  unassigned := by
    intro r hr i hi
    rw [List.mem_singleton] at hr
    subst hr
    match i with
    | 0 | 2 => rfl
    | 1 => exact absurd List.mem_cons_self hi
    | i + 3 => rfl

/-- The key `h` with the two mapped fields. -/
def profileOf (a b : Bytes) : Keyspace :=
  Function.update (fun _ => none) [0x68]
    (hashes.write (((∅ : Fields).insert [0x61] ⟨a, none⟩).insert [0x62] ⟨b, none⟩))

theorem update_changes_only_assigned_first : letI := integerScores
    ∃ ops L ks', assignFirst.ops = .ok ops ∧ foldOps ops .empty = .ok L ∧
      runProgram 0 L.plans (profileOf [0x31] [0x32]) = (.ok 1, ks') ∧
      (assignFirst.OnlyAssigned ops (profileOf [0x31] [0x32]) ks' ↔
        assignFirst.Current ops (profileOf [0x31] [0x32])) := by
  refine ⟨_, _, _, rfl, rfl, rfl, ?_⟩
  have hMap : mapBuild profileDef = .ok profile := rfl
  have hKeys : ¬assignFirst.Assigns (·.kind = .key) := by
    rintro ⟨i, hi, c, hc, hKind⟩
    obtain rfl : i = 1 := List.mem_singleton.mp hi
    cases hc
    cases hKind
  exact @update_changes_only_assigned integerScores 0 profile _ _ _ _ 1 assignFirst _ hMap
    (.inl rfl) rfl (fun h => absurd h hKeys) rfl rfl

/-- Another client set the second field to `5` after the statement read the row:
the flush answers OK and sets it back to `2`. -/
theorem unassigned_field_reverted : letI := integerScores
    ∃ ops L ks', assignFirst.ops = .ok ops ∧ foldOps ops .empty = .ok L ∧
      runProgram 0 L.plans (profileOf [0x31] [0x35]) = (.ok 1, ks') ∧
      subValue (ks' [0x68]) [0x62] = some [0x32] ∧
      ¬assignFirst.OnlyAssigned ops (profileOf [0x31] [0x35]) ks' := by
  refine ⟨_, _, _, rfl, rfl, rfl, by decide, fun hOnly => ?_⟩
  have hLeaves : assignFirst.Leaves [0x62] := by
    rintro ⟨i, hi, c, hc, -, hField⟩
    obtain rfl : i = 1 := List.mem_singleton.mp hi
    cases hc
    cases hField
  have hKept := hOnly _ List.mem_cons_self [0x62] hLeaves
  revert hKept
  decide

end ValkeyFdw
