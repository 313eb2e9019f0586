import ValkeyFdw.Ledger.Checks
import ValkeyFdw.Safety.Phases

/-!
# Rows, and what an operation does to them

A row of a string, hash or packed table is a whole key. A row of a mapped set,
sorted set or list is one member of a key. This module says what an operation's
own commands do to the rows of its key (`exec_member`, `exec_element`) and to
everything else (`WriteOp.exec_frame`), and shows that the ledger's record of
members and elements agrees with the rows as long as no rename has moved the
key (`MembersAgree.step`, `ElementsAgree.step`).
-/

namespace ValkeyFdw

open Server Trace Cell

/-! ## The identity of a row -/

/-- A key, and the member for the tables that map one. -/
abbrev RowId := Bytes × Option Bytes

/-- The row is there: its key, or its member or element under the key. -/
def RowPresent (ks : Keyspace) (r : RowId) : Prop :=
  match r.2 with
  | none => (ks r.1).isSome
  | some m => holdsSub (ks r.1) m = true

instance (ks : Keyspace) (r : RowId) : Decidable (RowPresent ks r) :=
  match r with
  | (k, none) => inferInstanceAs (Decidable ((ks k).isSome = true))
  | (k, some m) => inferInstanceAs (Decidable (holdsSub (ks k) m = true))

theorem RowPresent.key {ks : Keyspace} {r : RowId} (h : RowPresent ks r) : (ks r.1).isSome := by
  obtain ⟨k, _ | m⟩ := r
  · exact h
  · exact isSome_of_holdsSub h

namespace WriteOp

variable (op : WriteOp)

/-- Whether a row of the operation's table is a member of its key. -/
def byMember : Bool :=
  !op.packedShape && (op.tabletype = .set || op.tabletype = .zset || op.tabletype = .list)

def rowMember : Option Bytes := if op.byMember then op.member else none

/-- The row as the operation leaves it. -/
def newRow : RowId := (op.key, op.rowMember)

/-- The row as the operation found it. -/
def oldRow : RowId := (op.oldkey.getD op.key, op.rowMember.map fun m => op.oldmember.getD m)

end WriteOp

variable {op : WriteOp}

theorem WriteOp.oldkey_getD (hKind : op.kind = .update) (hRen : op.isRename = false) :
    op.oldkey.getD op.key = op.key := by
  cases hOld : op.oldkey with
  | none => rfl
  | some old => simpa [WriteOp.isRename, hKind, hOld] using hRen

/-- What the write path buffers: only an UPDATE has an old identity, and a mapped
list takes no UPDATE. -/
structure WriteOp.Buffered (op : WriteOp) : Prop where
  oldkey : op.kind ≠ .update → op.oldkey = none
  oldmember : op.kind ≠ .update → op.oldmember = none
  list : op.tabletype = .list → op.packedShape = false → op.kind ≠ .update

instance (op : WriteOp) : Decidable op.Buffered :=
  decidable_of_iff ((op.kind ≠ .update → op.oldkey = none) ∧
    (op.kind ≠ .update → op.oldmember = none) ∧
    (op.tabletype = .list → op.packedShape = false → op.kind ≠ .update))
    ⟨fun h => ⟨h.1, h.2.1, h.2.2⟩, fun h => ⟨h.oldkey, h.oldmember, h.list⟩⟩

/-- An operation buffered through a table of the given type, shape and index. -/
structure OfTable (t : TableType) (packed : Bool) (keyset : Option Bytes) (op : WriteOp) : Prop
    extends op.Buffered where
  type : op.tabletype = t
  shape : op.packedShape = packed
  index : op.keyset = keyset
  supported : op.Supported

instance (op : WriteOp) : Decidable op.Supported :=
  decidable_of_iff (op.tabletype ≠ .vector ∧ (op.packedShape = true →
    op.tabletype = .hash ∨ op.tabletype = .set ∨ op.tabletype = .list))
    ⟨fun h => ⟨h.1, h.2⟩, fun h => ⟨h.notVector, h.packed⟩⟩

instance (t : TableType) (packed : Bool) (keyset : Option Bytes) (op : WriteOp) :
    Decidable (OfTable t packed keyset op) :=
  decidable_of_iff (op.Buffered ∧ op.tabletype = t ∧ op.packedShape = packed ∧
    op.keyset = keyset ∧ op.Supported)
    ⟨fun h => ⟨h.1, h.2.1, h.2.2.1, h.2.2.2.1, h.2.2.2.2⟩,
      fun h => ⟨h.toBuffered, h.type, h.shape, h.index, h.supported⟩⟩

theorem WriteOp.Buffered.oldkey_mem_names (h : op.Buffered) :
    op.oldkey.getD op.key ∈ op.names := by
  by_cases hKind : op.kind = .update
  · by_cases hRen : op.isRename = true
    · obtain ⟨-, old, hOld, -⟩ := isRename_iff.mp hRen
      simp [names, hRen, hOld]
    · rw [oldkey_getD hKind (by simpa using hRen)]
      exact List.mem_cons_self
  · rw [h.oldkey hKind]
    exact List.mem_cons_self

theorem WriteOp.Buffered.oldkey_eq (h : op.Buffered) (hRen : op.isRename = false) :
    op.oldkey.getD op.key = op.key := by
  simpa [names, hRen] using h.oldkey_mem_names

theorem created_absent {ops : List WriteOp} {L : Ledger} {ks : Keyspace}
    (hFold : foldOps ops .empty = .ok L) (hPass : L.Passes ks) {pre post : List WriteOp}
    (hSplit : ops = pre ++ op :: post) (hCreates : op.kind = .insert ∨ op.isRename = true)
    (hFresh : ∀ o ∈ pre, op.key ∉ o.names) :
    ks op.key = none :=
  (firstTouch_of_split hFold hPass hSplit hFresh).1 hCreates

/-! ## The commands of an operation -/

theorem OpAction.cells {z : Bool} {a : Action} (h : OpAction op z a) {n : Bytes}
    (hn : n ∈ a.cells op.key) : n ∈ op.names ∨ op.keyset = some n := by
  rcases a.index_cases op.key with hIndex | ⟨s, hIndex, hOnly⟩
  · rw [Action.cells_of_index_nil hIndex] at hn
    exact .inl (h.within.keys n hn)
  · obtain rfl : n = s := by simpa [hOnly] using hn
    exact .inr (h.within.index n (by simp [hIndex]))

theorem keysetActions_cells {k key : Bytes} {add : Bool} {a : Action}
    (ha : a ∈ op.keysetActions key add) (hIndex : op.keyset ≠ some k) : k ∉ a.cells op.key := by
  unfold WriteOp.keysetActions at ha
  split at ha
  · cases ha
  · rename_i s hs
    rw [List.mem_singleton.mp ha]
    have hne : k ≠ s := fun h => hIndex (h ▸ hs)
    cases add <;> simpa [Action.cells] using hne

section Exec

variable [Doubles] {now : Nat} {op : WriteOp} {ks ks' : Keyspace} {k : Bytes}

theorem run_actions_frame {as : List Action} {key : Bytes} (hCells : ∀ a ∈ as, k ∉ a.cells key)
    (hRun : run (execStep now) (as.map fun a => (key, a)) ks = .ok ks') : ks' k = ks k := by
  refine run_frame (g := fun ks : Keyspace => ks k) ?_ hRun
  intro x hx ks₁ ks₂ hExec
  obtain ⟨a, ha, rfl⟩ := List.mem_map.mp hx
  exact (Action.localTo now key a).frame hExec k (hCells a ha)

theorem WriteOp.exec_frame (hExec : op.exec now ks = .ok ks') (hNames : k ∉ op.names)
    (hIndex : op.keyset ≠ some k) : ks' k = ks k := by
  refine run_actions_frame (fun a ha hCells => ?_) hExec
  exact ((opAction_of_mem ha).cells hCells).elim hNames hIndex

/-- The write of a row that is not the whole key, up to the index. -/
theorem WriteOp.exec_shape (hExec : op.exec now ks = .ok ks') (hRen : op.isRename = false)
    (hDel : op.deletesKey = false) (hPacked : op.packedShape = false)
    (hIndex : op.keyset ≠ some op.key) :
    ∃ mid, run (execStep now)
        ((op.shapeActions (op.tabletype = .zset)).map fun a => (op.key, a)) ks = .ok mid ∧
      ks' op.key = mid op.key := by
  have hRename := WriteOp.renameActions_of_not hRen
  unfold WriteOp.exec WriteOp.commands WriteOp.actions at hExec
  rw [hRename, List.nil_append, WriteOp.writeActions] at hExec
  simp only [hDel, hPacked, Bool.false_eq_true, if_false, List.map_append] at hExec
  obtain ⟨mid, hShape, hRest⟩ := run_append_ok.mp hExec
  refine ⟨mid, hShape, run_actions_frame (fun a ha => ?_) hRest⟩
  split at ha
  · exact keysetActions_cells ha hIndex
  · cases ha

/-! ## Members and elements -/

variable {m x : Bytes}

theorem exec_remMember {z : Bool} (h : (remMember z m).exec now k ks = .ok ks') :
    holdsSub (ks' k) x = true ↔ x ≠ m ∧ holdsSub (ks k) x = true := by
  cases z with
  | true =>
    obtain ⟨t, ht, rfl⟩ := onCollection_ok (C := zsets) |>.mp h
    rw [Function.update_self, holdsSub_of_zsets (zsets.read_write _), holdsSub_of_zsets ht,
      Finmap.mem_erase]
  | false =>
    obtain ⟨t, ht, rfl⟩ := onCollection_ok (C := sets) |>.mp h
    rw [Function.update_self, holdsSub_of_sets (sets.read_write _), holdsSub_of_sets ht,
      Finset.mem_erase]

theorem exec_addMember {z : Bool} (h : (addMember z op m).exec now k ks = .ok ks') :
    holdsSub (ks' k) x = true ↔ x = m ∨ holdsSub (ks k) x = true := by
  cases z with
  | true =>
    obtain ⟨y, -, h⟩ := zadd_ok.mp h
    obtain ⟨t, ht, rfl⟩ := onCollection_ok.mp h
    rw [Function.update_self, holdsSub_of_zsets (zsets.read_write _), holdsSub_of_zsets ht,
      Finmap.mem_insert]
  | false =>
    obtain ⟨t, ht, rfl⟩ := onCollection_ok (C := sets) |>.mp h
    rw [Function.update_self, holdsSub_of_sets (sets.read_write _), holdsSub_of_sets ht,
      Finset.mem_insert]

theorem exec_lrem1 (h : (Action.lrem1 m).exec now k ks = .ok ks') :
    occurrences (ks' k) x = occurrences (ks k) x - if x = m then 1 else 0 := by
  obtain ⟨t, ht, rfl⟩ := onCollection_ok (C := lists) |>.mp h
  rw [Function.update_self, occurrences_of_lists (lists.read_write _), occurrences_of_lists ht,
    List.count_erase]
  by_cases hx : x = m
  · simp [hx]
  · simp [hx, Ne.symm hx]

theorem exec_rpush (h : (Action.rpush m).exec now k ks = .ok ks') :
    occurrences (ks' k) x = occurrences (ks k) x + if x = m then 1 else 0 := by
  obtain ⟨t, ht, rfl⟩ := onCollection_ok (C := lists) |>.mp h
  rw [Function.update_self, occurrences_of_lists (lists.read_write _), occurrences_of_lists ht,
    List.count_append, List.count_singleton]
  by_cases hx : x = m
  · simp [hx]
  · simp [hx, Ne.symm hx]

/-- The members of a key after an operation that leaves it in its place. -/
theorem exec_member (hExec : op.exec now ks = .ok ks') (hRen : op.isRename = false)
    (hPacked : op.packedShape = false) (hType : op.tabletype = .set ∨ op.tabletype = .zset)
    (hIndex : op.keyset ≠ some op.key) (hMember : op.member = some m) :
    holdsSub (ks' op.key) x = true ↔
      if op.kind = .delete then x ≠ m ∧ holdsSub (ks op.key) x = true
      else if op.kind = .update ∧ op.oldmember.getD m ≠ m then
        x = m ∨ x ≠ op.oldmember.getD m ∧ holdsSub (ks op.key) x = true
      else x = m ∨ holdsSub (ks op.key) x = true := by
  have hDel : op.deletesKey = false := by
    rcases hType with h | h <;> simp [WriteOp.deletesKey, h, hPacked]
  obtain ⟨mid, hRun, hSame⟩ := WriteOp.exec_shape hExec hRen hDel hPacked hIndex
  have hShape : op.shapeActions (op.tabletype = .zset) =
      op.memberActions (op.tabletype = .zset) := by
    rcases hType with h | h <;> simp [WriteOp.shapeActions, h]
  rw [hShape, WriteOp.memberActions, hMember] at hRun
  dsimp only at hRun
  rw [hSame]
  by_cases hKind : op.kind = .delete
  · rw [if_pos hKind] at hRun ⊢
    rw [List.map_cons, List.map_nil, run_singleton] at hRun
    exact exec_remMember hRun
  · by_cases hMove : op.kind = .update ∧ op.oldmember.getD m ≠ m
    · rw [if_neg hKind, if_pos hMove] at hRun ⊢
      obtain ⟨ks₁, hRem, hRest⟩ := run_cons_ok.mp hRun
      rw [List.map_cons, List.map_nil, run_singleton] at hRest
      rw [exec_addMember hRest, exec_remMember hRem]
    · rw [if_neg hKind, if_neg hMove] at hRun ⊢
      rw [List.map_cons, List.map_nil, run_singleton] at hRun
      exact exec_addMember hRun

/-- The elements of a key after an operation on a mapped list. -/
theorem exec_element (hExec : op.exec now ks = .ok ks') (hRen : op.isRename = false)
    (hPacked : op.packedShape = false) (hType : op.tabletype = .list)
    (hIndex : op.keyset ≠ some op.key) (hMember : op.member = some m) :
    occurrences (ks' op.key) x =
      if op.kind = .delete then occurrences (ks op.key) x - if x = m then 1 else 0
      else occurrences (ks op.key) x + if x = m then 1 else 0 := by
  have hDel : op.deletesKey = false := by simp [WriteOp.deletesKey, hType, hPacked]
  obtain ⟨mid, hRun, hSame⟩ := WriteOp.exec_shape hExec hRen hDel hPacked hIndex
  simp only [WriteOp.shapeActions, hType, WriteOp.listActions, hMember] at hRun
  rw [hSame]
  by_cases hKind : op.kind = .delete
  · simp only [hKind, if_true, List.map_cons, List.map_nil, run_singleton] at hRun
    rw [if_pos hKind]
    exact exec_lrem1 hRun
  · simp only [hKind, if_false, List.map_cons, List.map_nil, run_singleton] at hRun
    rw [if_neg hKind]
    exact exec_rpush hRun

end Exec

/-! ## The record of a key -/

/-- A rename of the transaction has moved the key, or moved another to it. -/
def Ledger.Moved (L : Ledger) (k : Bytes) : Prop :=
  ∃ p ∈ L.plans, ∃ a ∈ p.actions, ∃ old ∈ a.source?, p.key = k ∨ old = k

instance (L : Ledger) (k : Bytes) : Decidable (L.Moved k) :=
  inferInstanceAs (Decidable (∃ p ∈ L.plans, ∃ a ∈ p.actions, ∃ old ∈ a.source?,
    p.key = k ∨ old = k))

theorem Ledger.moved_iff {L : Ledger} {k : Bytes} :
    L.Moved k ↔ ∃ dst old, .rename old ∈ L.actionsOf dst ∧ (dst = k ∨ old = k) := by
  constructor
  · rintro ⟨p, hp, a, ha, old, hOld, hk⟩
    have hRename : a = .rename old := by
      cases a <;> simp_all [Action.source?]
    refine ⟨p.key, old, ?_, hk⟩
    rw [← hRename]
    simpa [actionsOf, plan?_of_mem hp] using ha
  · rintro ⟨dst, old, ha, hk⟩
    cases hPlan : L.plan? dst with
    | none => simp [actionsOf, hPlan] at ha
    | some p =>
      obtain ⟨hp, rfl⟩ := mem_of_plan? hPlan
      exact ⟨p, hp, _, by simpa [actionsOf, hPlan] using ha, old, rfl, hk⟩

section Record

variable {op : WriteOp} {L L' : Ledger} {plan : Plan} {k : Bytes}

theorem NoteStep.moved (h : NoteStep op L L' plan) (hMoved : L.Moved k) : L'.Moved k := by
  obtain ⟨dst, old, ha, hk⟩ := Ledger.moved_iff.mp hMoved
  exact Ledger.moved_iff.mpr ⟨dst, old, h.mem_actionsOf ha, hk⟩

theorem NoteStep.moved_of_rename (h : NoteStep op L L' plan) (hRen : op.isRename = true)
    (hk : k ∈ op.names) : L'.Moved k := by
  obtain ⟨-, old, hOld, -⟩ := WriteOp.isRename_iff.mp hRen
  refine Ledger.moved_iff.mpr ⟨op.key, old, ?_, ?_⟩
  · rw [h.actionsOf_key]
    refine List.mem_append_right _ (List.mem_append_left _ ?_)
    simp [WriteOp.renameActions, hOld, hRen]
  · rcases WriteOp.mem_names hk with rfl | ⟨-, hOld'⟩
    · exact .inl rfl
    · exact .inr (Option.some.inj (hOld.symm.trans hOld'))

variable {members : Members}

theorem mark_other {sub : Bytes} {b : Bool} (hk : k ≠ op.key) :
    op.mark members sub b k = members k :=
  Function.update_of_ne hk _ _

theorem mark_own {sub x : Bytes} {b : Bool} :
    ((op.mark members sub b op.key x).map (·.present)) =
      if x = sub then some b else (members op.key x).map (·.present) := by
  unfold WriteOp.mark Members.enter
  rw [Function.update_self]
  by_cases hx : x = sub
  · simp [hx]
  · simp [hx]

theorem recordFields_other {fs : List WriteArg} (hk : k ≠ op.key) :
    op.recordFields fs members k = members k := by
  induction fs generalizing members with
  | nil => rfl
  | cons f fs ih => exact ih.trans (mark_other hk)

theorem recordMember_other (hk : k ≠ op.key) :
    op.recordMember members k = members k := by
  unfold WriteOp.recordMember
  cases op.member with
  | none => rfl
  | some m =>
    dsimp only
    split_ifs
    · exact mark_other hk
    · exact (mark_other hk).trans (mark_other hk)
    · exact mark_other hk

theorem recordElement_other (hk : k ≠ op.key) :
    op.recordElement members k = members k := by
  unfold WriteOp.recordElement
  cases op.member with
  | none => rfl
  | some m => exact Function.update_of_ne hk _ _

theorem record_other (hk : k ≠ op.key) : op.record members k = members k := by
  unfold WriteOp.record
  split
  · rfl
  · cases op.tabletype with
    | string | vector => rfl
    | hash => exact recordFields_other hk
    | set | zset => exact recordMember_other hk
    | list => exact recordElement_other hk

end Record

/-! ## Agreement of the record with the rows -/

/-- The record says which members the key has now: those recorded as present,
and of the others those it had at the start. -/
def MembersAgree (ks : Keyspace) (L : Ledger) (cur : Keyspace) (k : Bytes) : Prop :=
  ∀ m, holdsSub (cur k) m = ((L.members k m).map (·.present)).getD (holdsSub (ks k) m)

/-- The record says how often the key has each element now. -/
def ElementsAgree (ks : Keyspace) (L : Ledger) (cur : Keyspace) (k : Bytes) : Prop :=
  ∀ m, occurrences (cur k) m + ((L.members k m).getD {}).presentRemovals =
    occurrences (ks k) m + ((L.members k m).getD {}).count

section Agree

variable [Doubles] {now : Nat} {op : WriteOp} {L L' : Ledger} {plan : Plan}
  {ks cur cur' : Keyspace}

theorem exec_noMember (hExec : op.exec now cur = .ok cur') (hRen : op.isRename = false)
    (hRow : op.byMember = true) (hIndex : op.keyset ≠ some op.key) (hMember : op.member = none) :
    cur' op.key = cur op.key := by
  simp only [WriteOp.byMember, Bool.and_eq_true, Bool.not_eq_true', Bool.or_eq_true,
    decide_eq_true_eq] at hRow
  obtain ⟨hPacked, hType⟩ := hRow
  have hDel : op.deletesKey = false := by
    rcases hType with (h | h) | h <;> simp [WriteOp.deletesKey, h, hPacked]
  obtain ⟨mid, hRun, hSame⟩ := WriteOp.exec_shape hExec hRen hDel hPacked hIndex
  have hShape : op.shapeActions (op.tabletype = .zset) = [] := by
    rcases hType with (h | h) | h <;>
      simp [WriteOp.shapeActions, h, WriteOp.memberActions, WriteOp.listActions, hMember]
  rw [hShape] at hRun
  cases hRun
  exact hSame

theorem MembersAgree.step (hStep : NoteStep op L L' plan) (hExec : op.exec now cur = .ok cur')
    (hRen : op.isRename = false) (hPacked : op.packedShape = false)
    (hType : op.tabletype = .set ∨ op.tabletype = .zset) (hIndex : op.keyset ≠ some op.key)
    (hOld : op.kind ≠ .update → op.oldmember = none) (h : MembersAgree ks L cur op.key) :
    MembersAgree ks L' cur' op.key := by
  have hRecord : L'.members = op.recordMember L.members := by
    rw [hStep.members_eq]
    rcases hType with hType | hType <;> simp [WriteOp.record, WriteOp.deletesKey, hPacked, hType]
  intro x
  rw [hRecord]
  cases hMember : op.member with
  | none =>
    have hRow : op.byMember = true := by
      rcases hType with hType | hType <;> simp [WriteOp.byMember, hPacked, hType]
    rw [exec_noMember hExec hRen hRow hIndex hMember, h x, WriteOp.recordMember, hMember]
  | some m =>
    have hEffect := exec_member (x := x) hExec hRen hPacked hType hIndex hMember
    rw [h x] at hEffect
    rw [Bool.eq_iff_iff, hEffect, WriteOp.recordMember, hMember]
    dsimp only
    by_cases hDel : op.kind = .delete
    · have hNone : op.oldmember = none := hOld (by simp [hDel])
      rw [if_pos hDel, if_pos hDel, hNone, mark_own]
      by_cases hx : x = m <;> simp [hx]
    · rw [if_neg hDel, if_neg hDel]
      by_cases hMove : op.kind = .update ∧ op.oldmember.getD m ≠ m
      · rw [if_pos hMove, if_pos hMove, mark_own, mark_own]
        by_cases hx : x = m
        · simp [hx]
        · by_cases hx' : x = op.oldmember.getD m
          · simp [hx', hMove.2]
          · simp [hx, hx']
      · rw [if_neg hMove, if_neg hMove, mark_own]
        have hSame : op.oldmember.getD m = m := by
          by_cases hKind : op.kind = .update
          · by_contra hne
            exact hMove ⟨hKind, hne⟩
          · rw [hOld hKind]
            rfl
        rw [hSame]
        by_cases hx : x = m <;> simp [hx]

/-- Every DELETE of an element takes one that is there, so the counts stay in step. -/
theorem ElementsAgree.step (hStep : NoteStep op L L' plan) (hExec : op.exec now cur = .ok cur')
    (hRen : op.isRename = false) (hPacked : op.packedShape = false)
    (hType : op.tabletype = .list) (hIndex : op.keyset ≠ some op.key)
    (hPresent : op.kind = .delete → ∀ m ∈ op.member, 0 < occurrences (cur op.key) m)
    (h : ElementsAgree ks L cur op.key) : ElementsAgree ks L' cur' op.key := by
  have hRecord : L'.members = op.recordElement L.members := by
    rw [hStep.members_eq]
    simp [WriteOp.record, WriteOp.deletesKey, hPacked, hType]
  intro x
  rw [hRecord]
  cases hMember : op.member with
  | none =>
    have hRow : op.byMember = true := by simp [WriteOp.byMember, hPacked, hType]
    rw [exec_noMember hExec hRen hRow hIndex hMember, WriteOp.recordElement, hMember]
    exact h x
  | some m =>
    have hEffect := exec_element (x := x) hExec hRen hPacked hType hIndex hMember
    have hx := h x
    rw [hEffect, WriteOp.recordElement, hMember]
    dsimp only
    unfold Members.enter
    rw [Function.update_self]
    by_cases hxm : x = m
    · subst hxm
      rw [Function.update_self]
      by_cases hDel : op.kind = .delete
      · have hPos := hPresent hDel x hMember
        by_cases hCount : 0 < ((L.members op.key x).getD {}).count
        · simp only [hDel, hCount, if_true, Option.getD_some]
          omega
        · simp only [hDel, hCount, if_true, if_false, Option.getD_some]
          omega
      · simp only [hDel, if_true, if_false, Option.getD_some]
        omega
    · rw [Function.update_of_ne hxm]
      simp only [hxm, if_false, Nat.sub_zero, Nat.add_zero, ite_self]
      exact hx

end Agree

/-! ## One table -/

section Table

variable {t : TableType} {packed : Bool} {keyset : Option Bytes} {ops : List WriteOp}
  {op : WriteOp} {L L' : Ledger} {ks cur cur' : Keyspace}

/-- The operations of one table use every name with one type, if no key of
theirs is the table's index. -/
theorem OfTable.oneType (hTable : ∀ op ∈ ops, OfTable t packed keyset op)
    (hIndex : ∀ op ∈ ops, ∀ n ∈ op.names, keyset ≠ some n) : OneType ops := by
  have hUses : ∀ op ∈ ops, ∀ u ∈ op.uses, u.1 ∈ op.names ∧ u.2 = t.valueType ∨
      keyset = some u.1 ∧ u.2 = .set := by
    intro op hOp u hu
    rcases List.mem_append.mp hu with hu | hu
    · obtain ⟨n, hn, rfl⟩ := List.mem_map.mp hu
      exact .inl ⟨hn, by rw [(hTable op hOp).type]⟩
    · obtain ⟨s, hs, rfl⟩ := List.mem_map.mp hu
      refine .inr ⟨?_, rfl⟩
      rw [← (hTable op hOp).index]
      by_cases hEdits : op.editsIndex <;> simp_all [WriteOp.indexes]
  intro op hOp op' hOp' u hu u' hu' hName
  rcases hUses op hOp u hu with ⟨hn, hu⟩ | ⟨hs, hu⟩ <;>
    rcases hUses op' hOp' u' hu' with ⟨hn', hu'⟩ | ⟨hs', hu'⟩
  · rw [hu, hu']
  · exact absurd (hName ▸ hs') (hIndex op hOp u.1 hn)
  · exact absurd (hName ▸ hs) (hIndex op' hOp' u'.1 hn')
  · rw [hu, hu']

/-- What the ledger knows about the state the operations so far lead to. -/
structure Sync (t : TableType) (packed : Bool) (keyset : Option Bytes) (ks : Keyspace)
    (L : Ledger) (cur : Keyspace) : Prop where
  types : ∀ {k p}, L.plan? k = some p → p.ttype = t
  untouched : ∀ {k}, L.plan? k = none → keyset ≠ some k → cur k = ks k
  members : packed = false → t = .set ∨ t = .zset → ∀ {k}, ¬L.Moved k → keyset ≠ some k →
    MembersAgree ks L cur k
  elements : packed = false → t = .list → ∀ {k}, keyset ≠ some k → ElementsAgree ks L cur k

theorem Sync.empty : Sync t packed keyset ks .empty ks where
  types h := by simp [Ledger.plan?, Ledger.empty] at h
  untouched _ _ := rfl
  members _ _ _ _ _ := fun _ => rfl
  elements _ _ _ _ := fun _ => rfl

theorem Sync.entry_type (h : Sync t packed keyset ks L cur) (hOp : OfTable t packed keyset op)
    (k : Bytes) : (L.entry k op.tabletype).ttype = t := by
  unfold Ledger.entry
  cases hPlan : L.plan? k with
  | none => exact hOp.type
  | some p => exact h.types hPlan

theorem OfTable.not_rename (hOp : OfTable t packed keyset op) (hList : t = .list)
    (hPacked : packed = false) : op.isRename = false := by
  simp [WriteOp.isRename, hOp.list (hOp.type.trans hList) (hOp.shape.trans hPacked)]

theorem Sync.step [Doubles] {now : Nat} (h : Sync t packed keyset ks L cur)
    (hOp : OfTable t packed keyset op) (hIndex : ∀ n ∈ op.names, keyset ≠ some n)
    (hPresent : packed = false → t = .list → op.kind = .delete →
      ∀ m ∈ op.member, 0 < occurrences (cur op.key) m)
    (hNote : note op L = .ok L') (hExec : op.exec now cur = .ok cur') :
    Sync t packed keyset ks L' cur' := by
  obtain ⟨plan, hStep⟩ := note_spec hNote
  have hOwnIndex : op.keyset ≠ some op.key := by
    rw [hOp.index]
    exact hIndex op.key List.mem_cons_self
  have hFrame : ∀ {k}, k ∉ op.names → keyset ≠ some k → cur' k = cur k := by
    intro k hk hKeyset
    exact WriteOp.exec_frame hExec hk (hOp.index ▸ hKeyset)
  have hRecord : ∀ {k}, k ≠ op.key → L'.members k = L.members k := by
    intro k hk
    rw [hStep.members_eq]
    exact record_other hk
  refine ⟨?_, ?_, ?_, ?_⟩
  · intro k p hp
    by_cases hNames : k ∈ op.names
    · rcases WriteOp.mem_names hNames with rfl | ⟨hRen, hOld⟩
      · rw [hStep.plan_key] at hp
        cases hp
        exact hStep.plan_extends.ttype.trans (h.entry_type hOp _)
      · rw [hStep.plan_old hRen hOld] at hp
        cases hp
        exact (L.sourcePlan_extends op k).ttype.trans (h.entry_type hOp _)
    · rw [hStep.plan_other hNames] at hp
      exact h.types hp
  · intro k hNone hKeyset
    have hNames : k ∉ op.names := by
      intro hk
      have hKey := hStep.mem_keys (.inr hk)
      rw [← Ledger.plan?_isSome, hNone] at hKey
      simp at hKey
    rw [hFrame hNames hKeyset]
    exact h.untouched (by rw [← hStep.plan_other hNames, hNone]) hKeyset
  · intro hPacked hType k hMoved hKeyset
    have hBefore : MembersAgree ks L cur k :=
      h.members hPacked hType (fun hm => hMoved (hStep.moved hm)) hKeyset
    by_cases hk : k = op.key
    · subst hk
      have hRen : op.isRename = false := by
        rw [Bool.eq_false_iff]
        exact fun hRen => hMoved (hStep.moved_of_rename hRen List.mem_cons_self)
      exact hBefore.step hStep hExec hRen (hOp.shape.trans hPacked) (hOp.type ▸ hType) hOwnIndex
        hOp.oldmember
    · have hNames : k ∉ op.names := by
        intro hNames
        obtain ⟨hRen, -⟩ := (WriteOp.mem_names hNames).resolve_left hk
        exact hMoved (hStep.moved_of_rename hRen hNames)
      intro m
      rw [hFrame hNames hKeyset, hRecord hk]
      exact hBefore m
  · intro hPacked hType k hKeyset
    have hBefore : ElementsAgree ks L cur k := h.elements hPacked hType hKeyset
    have hRen := hOp.not_rename hType hPacked
    by_cases hk : k = op.key
    · subst hk
      exact hBefore.step hStep hExec hRen (hOp.shape.trans hPacked) (hOp.type.trans hType)
        hOwnIndex (hPresent hPacked hType)
    · have hNames : k ∉ op.names := by
        rw [WriteOp.names_of_not_rename hRen]
        simpa using hk
      intro m
      rw [hFrame hNames hKeyset, hRecord hk]
      exact hBefore m

end Table

end ValkeyFdw
