import ValkeyFdw.Safety.Rows

/-!
# Transactions in which every operation finds its row

A transaction is legal when each INSERT adds a row that is absent and each
UPDATE or DELETE names a row that is present, in the state its own earlier
operations lead to. With no other writer such a transaction should commit. This
module says exactly when it does (`legal_commits_iff`): what can go wrong is a
first touch that demands an empty key, a string key inserted again after it was
renamed away, the fields of a hash, and the members of a key that was renamed.
-/

namespace ValkeyFdw

open Server Trace

/-- An INSERT adds a row that is absent, an UPDATE or DELETE names one that is
present. A list may hold a value any number of times, so that every element
pushed is a new row. -/
def LegalOp (cur : Keyspace) (op : WriteOp) : Prop :=
  if op.kind = .insert then
    op.tabletype = .list ∧ op.packedShape = false ∨ ¬RowPresent cur op.newRow
  else RowPresent cur op.oldRow

instance (cur : Keyspace) (op : WriteOp) : Decidable (LegalOp cur op) :=
  inferInstanceAs (Decidable (if op.kind = .insert then
    op.tabletype = .list ∧ op.packedShape = false ∨ ¬RowPresent cur op.newRow
  else RowPresent cur op.oldRow))

theorem LegalOp.oldRow_present {cur : Keyspace} {op : WriteOp} (h : LegalOp cur op)
    (hKind : op.kind ≠ .insert) : RowPresent cur op.oldRow := by
  rwa [LegalOp, if_neg hKind] at h

theorem LegalOp.newRow_absent {cur : Keyspace} {op : WriteOp} (h : LegalOp cur op)
    (hKind : op.kind = .insert) (hList : op.tabletype ≠ .list) : ¬RowPresent cur op.newRow := by
  rw [LegalOp, if_pos hKind] at h
  exact h.resolve_left fun hl => hList hl.1

/-! ## Legal operations succeed on their own -/

theorem source?_of_writeActions {op : WriteOp} {z : Bool} {a : Action}
    (ha : a ∈ op.writeActions z) : a.source? = none := by
  -- The write does not depend on the old name, and an operation without one is no rename.
  have hMem : a ∈ ({ op with oldkey := none } : WriteOp).actions z :=
    List.mem_append_right _ ha
  cases opAction_of_mem hMem with
  | rename hRen _ => simp [WriteOp.isRename] at hRen
  | _ => rfl

theorem source?_of_keysetActions {op : WriteOp} {key : Bytes} {add : Bool} {a : Action}
    (ha : a ∈ op.keysetActions key add) : a.source? = none := by
  unfold WriteOp.keysetActions at ha
  split at ha
  · cases ha
  · rw [List.mem_singleton.mp ha]
    cases add <;> rfl

section Total

variable [Doubles] {now : Nat} {ops : List WriteOp} {op : WriteOp} {cur : Keyspace}

/-- Only the first command of an operation can be a rename. -/
theorem along_commands (hSource : ∀ old, op.isRename = true → op.oldkey = some old →
    (cur old).isSome) : Along (execStep now) SourcePresent op.commands cur := by
  have hFree : ∀ (as : List Action) (ks : Keyspace), (∀ a ∈ as, a.source? = none) →
      Along (execStep now) SourcePresent (as.map fun a => (op.key, a)) ks := by
    intro as ks has
    refine .of_invariant (I := fun _ => True) (fun _ _ _ _ _ _ => trivial) ?_ trivial
    intro x hx ks _ old hOld
    obtain ⟨a, ha, rfl⟩ := List.mem_map.mp hx
    rw [has a ha] at hOld
    cases hOld
  unfold WriteOp.commands WriteOp.actions
  by_cases hRen : op.isRename = true
  · obtain ⟨-, old, hOld, -⟩ := WriteOp.isRename_iff.mp hRen
    simp only [WriteOp.renameActions, hOld, hRen, if_true, List.cons_append, List.map_cons]
    refine ⟨fun src hSrc => ?_, fun ks _ => hFree _ ks fun a ha => ?_⟩
    · cases hSrc
      exact hSource old hRen hOld
    · rw [List.append_assoc, List.mem_append, List.mem_append] at ha
      rcases ha with ha | ha | ha
      · exact source?_of_keysetActions ha
      · exact source?_of_keysetActions ha
      · exact source?_of_writeActions ha
  · rw [WriteOp.renameActions_of_not (by simpa using hRen), List.nil_append]
    exact hFree _ cur fun a ha => source?_of_writeActions ha

theorem LegalOp.exec_total (hTypes : OneType ops) (hOp : op ∈ ops) (hRendered : op.Rendered now)
    (hTyped : Typed ops cur) (hLegal : LegalOp cur op) :
    ∃ cur', op.exec now cur = .ok cur' ∧ Typed ops cur' := by
  have hAlong : Along (execStep now) SourcePresent op.commands cur := by
    refine along_commands fun old hRen hOld => ?_
    have hKind : op.kind ≠ .insert := by simp [(WriteOp.isRename_iff.mp hRen).1]
    simpa [WriteOp.oldRow, hOld] using (hLegal.oldRow_present hKind).key
  refine hAlong.run_total (I := Typed ops) (fun x hx ks hTyped hSource => ?_) hTyped
  obtain ⟨a, ha, rfl⟩ := List.mem_map.mp hx
  have hAction := opAction_of_mem ha
  obtain ⟨ks', hExec⟩ := hTyped.action_total hOp hRendered hAction hSource
  exact ⟨ks', hExec, hTypes.typed_action hOp hAction hTyped hExec⟩

end Total

/-! ## When a legal operation is accepted and passes -/

/-- What has to hold at an operation of a legal transaction, beyond its legality. -/
structure CommitOk (ks : Keyspace) (L : Ledger) (op : WriteOp) : Prop where
  /-- An INSERT or a rename that is the first to touch its key finds it empty. -/
  fresh : op.kind = .insert ∨ op.isRename = true → L.plan? op.key = none → ks op.key = none
  /-- A string key is inserted again only after a DELETE. -/
  string : op.kind = .insert → ∀ p ∈ L.plan? op.key, p.ttype = .string → p.state = .deleted
  /-- The fields of a hash row obey the first-touch rule. -/
  fields : op.tabletype = .hash → op.packedShape = false → op.kind ≠ .delete →
    FieldsOk ks op (L.startPlan op).state op.fields L.members
  /-- So does a member of a key that a rename has moved. -/
  moved : op.tabletype = .set ∨ op.tabletype = .zset → op.packedShape = false →
    op.isRename = true ∨ L.Moved op.key → MemberOk ks op (L.startPlan op).state L.members

instance (ks : Keyspace) (L : Ledger) (op : WriteOp) : Decidable (CommitOk ks L op) :=
  decidable_of_iff ((op.kind = .insert ∨ op.isRename = true → L.plan? op.key = none →
      ks op.key = none) ∧
    (op.kind = .insert → ∀ p ∈ L.plan? op.key, p.ttype = .string → p.state = .deleted) ∧
    (op.tabletype = .hash → op.packedShape = false → op.kind ≠ .delete →
      FieldsOk ks op (L.startPlan op).state op.fields L.members) ∧
    (op.tabletype = .set ∨ op.tabletype = .zset → op.packedShape = false →
      op.isRename = true ∨ L.Moved op.key → MemberOk ks op (L.startPlan op).state L.members))
    ⟨fun h => ⟨h.1, h.2.1, h.2.2.1, h.2.2.2⟩, fun h => ⟨h.fresh, h.string, h.fields, h.moved⟩⟩

section Table

variable {t : TableType} {packed : Bool} {keyset : Option Bytes} {ops : List WriteOp}
  {op : WriteOp} {L : Ledger} {ks cur : Keyspace}

theorem LegalOp.key_present (hLegal : LegalOp cur op) (hOp : OfTable t packed keyset op)
    (hCreates : ¬(op.kind = .insert ∨ op.isRename = true)) : (cur op.key).isSome := by
  rw [not_or, Bool.not_eq_true] at hCreates
  simpa [WriteOp.oldRow, hOp.oldkey_eq hCreates.2] using (hLegal.oldRow_present hCreates.1).key

theorem Sync.memberOk (h : Sync t packed keyset ks L cur) (hOp : OfTable t packed keyset op)
    (hIndex : keyset ≠ some op.key) (hType : op.tabletype = .set ∨ op.tabletype = .zset)
    (hPacked : op.packedShape = false) (hRen : op.isRename = false) (hMoved : ¬L.Moved op.key)
    (hLegal : LegalOp cur op) : MemberOk ks op (L.startPlan op).state L.members := by
  intro m hm
  have hRow : op.rowMember = some m := by
    rcases hType with hType | hType <;>
      simpa [WriteOp.rowMember, WriteOp.byMember, hPacked, hType] using hm
  have hAgree := h.members (hOp.shape ▸ hPacked) (hOp.type ▸ hType) hMoved hIndex
    (op.oldmember.getD m)
  have hNew : op.kind = .insert → holdsSub (cur op.key) (op.oldmember.getD m) = false := by
    intro hIns
    have hAbsent := hLegal.newRow_absent hIns (by rcases hType with h | h <;> simp [h])
    rw [hOp.oldmember (by simp [hIns])]
    simpa [RowPresent, WriteOp.newRow, hRow] using hAbsent
  have hOld : op.kind ≠ .insert → holdsSub (cur op.key) (op.oldmember.getD m) = true := by
    intro hIns
    have hPresent := hLegal.oldRow_present hIns
    simpa [RowPresent, WriteOp.oldRow, hRow, hOp.oldkey_eq hRen] using hPresent
  unfold SubOk
  cases hEntry : L.members op.key (op.oldmember.getD m) with
  | some e =>
    intro hIns
    rw [hEntry] at hAgree
    rw [← hNew hIns]
    exact hAgree.symm
  | none =>
    rw [hEntry] at hAgree
    intro _
    constructor
    · intro hIns hHeld
      have hNow := hNew hIns
      rw [hAgree] at hNow
      simp [hHeld] at hNow
    · intro hHeld
      by_contra hIns
      have hNow := hOld hIns
      rw [hAgree] at hNow
      exact hHeld hNow

theorem LegalOp.element_present (hLegal : LegalOp cur op) (hOp : OfTable t packed keyset op)
    (hTyped : HoldsType t.valueType (cur op.key)) (hPacked : packed = false) (hType : t = .list)
    (hDel : op.kind = .delete) : ∀ m ∈ op.member, 0 < occurrences (cur op.key) m := by
  intro m hm
  have hPresent := hLegal.oldRow_present (by simp [hDel])
  rw [hType] at hTyped
  obtain ⟨l, hl⟩ := (lists.read_iff _).mpr hTyped
  have hHeld : holdsSub (cur op.key) m = true := by
    have hRow : op.rowMember = some m := by
      simpa [WriteOp.rowMember, WriteOp.byMember, hOp.shape, hPacked, hOp.type, hType] using hm
    simpa [RowPresent, WriteOp.oldRow, hRow, hOp.oldkey, hOp.oldmember, hDel] using hPresent
  rw [occurrences_of_lists hl, List.count_pos_iff]
  exact (holdsSub_of_lists hl m).mp hHeld

/-- For a legal operation the rules of the fold come down to `CommitOk`. -/
theorem Sync.noteOk_iff (h : Sync t packed keyset ks L cur) (hOp : OfTable t packed keyset op)
    (hIndex : ∀ n ∈ op.names, keyset ≠ some n) (hTyped : HoldsType t.valueType (cur op.key))
    (hLegal : LegalOp cur op) : NoteOk ks L op ↔ CommitOk ks L op := by
  have hOwnIndex := hIndex op.key List.mem_cons_self
  constructor
  · intro hOk
    refine ⟨fun hCreates hNone => (hOk.target hNone).1 hCreates, hOk.duplicate, ?_, ?_⟩
    · intro hType hPacked hKind
      have hDel : op.deletesKey = false := by simp [WriteOp.deletesKey, hKind]
      have hWrite := hOk.write hDel hPacked
      rwa [hType] at hWrite
    · intro hType hPacked _
      have hDel : op.deletesKey = false := by
        rcases hType with h | h <;> simp [WriteOp.deletesKey, h, hPacked]
      have hWrite := hOk.write hDel hPacked
      rcases hType with hType | hType <;> rwa [hType] at hWrite
  · intro hOk
    refine ⟨fun hNone => ⟨fun hCreates => hOk.fresh hCreates hNone, fun hCreates => ?_⟩, ?_,
      hOk.string, ?_⟩
    · rw [← h.untouched hNone hOwnIndex]
      exact hLegal.key_present hOp hCreates
    · intro old hRen hOld hNone
      have hName : old ∈ op.names := by simp [WriteOp.names, hRen, hOld]
      have hKind : op.kind ≠ .insert := by simp [(WriteOp.isRename_iff.mp hRen).1]
      rw [← h.untouched hNone (hIndex old hName)]
      simpa [WriteOp.oldRow, hOld] using (hLegal.oldRow_present hKind).key
    · intro hDel hPacked
      have hMember : op.tabletype = .set ∨ op.tabletype = .zset →
          MemberOk ks op (L.startPlan op).state L.members := by
        intro hType
        by_cases hMoved : op.isRename = true ∨ L.Moved op.key
        · exact hOk.moved hType hPacked hMoved
        · rw [not_or, Bool.not_eq_true] at hMoved
          exact h.memberOk hOp hOwnIndex hType hPacked hMoved.1 hMoved.2 hLegal
      cases hType : op.tabletype with
      | string | vector => trivial
      | hash =>
        refine hOk.fields hType hPacked fun hKind => ?_
        simp [WriteOp.deletesKey, hKind, hType] at hDel
      | set => exact hMember (.inl hType)
      | zset => exact hMember (.inr hType)
      | list =>
        intro m hm hKind
        have hList : t = .list := hOp.type ▸ hType
        have hMapped : packed = false := hOp.shape ▸ hPacked
        have hPos := hLegal.element_present hOp hTyped hMapped hList hKind m hm
        have hAgree := h.elements hMapped hList hOwnIndex m
        omega

variable [Doubles] {now : Nat}

theorem legal_passes_iff (hTable : ∀ op ∈ ops, OfTable t packed keyset op)
    (hIndex : ∀ op ∈ ops, ∀ n ∈ op.names, keyset ≠ some n)
    (hRendered : ∀ op ∈ ops, op.Rendered now) (hTypes : Typed ops ks) (done : List WriteOp)
    {rest : List WriteOp} (hOps : ops = done ++ rest) (hSync : Sync t packed keyset ks L cur)
    (hTyped : Typed ops cur) (hLegal : Along (WriteOp.exec now) LegalOp rest cur) :
    (∃ L', foldOps rest L = .ok L' ∧ L'.Passes ks) ↔
      L.Passes ks ∧ Along note (CommitOk ks) rest L := by
  induction rest generalizing done L cur with
  | nil => simp [foldOps, Along]
  | cons op rest ih =>
    have hMem : op ∈ ops := by simp [hOps]
    have hOp := hTable op hMem
    have hOwn : HoldsType t.valueType (cur op.key) :=
      hOp.type ▸ hTyped op hMem _ (WriteOp.mem_uses_of_names List.mem_cons_self)
    obtain ⟨cur', hExec, hTyped'⟩ :=
      hLegal.1.exec_total (OfTable.oneType hTable hIndex) hMem (hRendered op hMem) hTyped
    have hNote := note_passes_iff ks L hOp.supported
      ((hSync.entry_type hOp op.key).trans hOp.type.symm)
      fun n hn => hTypes op hMem _ (WriteOp.mem_uses_of_names hn)
    rw [hSync.noteOk_iff hOp (hIndex op hMem) hOwn hLegal.1] at hNote
    have hRest : ∀ L₁, note op L = .ok L₁ → ((∃ L', foldOps rest L₁ = .ok L' ∧ L'.Passes ks) ↔
        L₁.Passes ks ∧ Along note (CommitOk ks) rest L₁) := by
      intro L₁ hL₁
      refine ih (done ++ [op]) (by simp [hOps]) ?_ hTyped' (hLegal.2 cur' hExec)
      refine hSync.step hOp (hIndex op hMem) (fun hPacked hList hDel => ?_) hL₁ hExec
      exact hLegal.1.element_present hOp hOwn hPacked hList hDel
    constructor
    · rintro ⟨L', hFold, hPass⟩
      obtain ⟨L₁, hL₁, hFold⟩ := foldOps_cons.mp hFold
      obtain ⟨hPass₁, hAlong⟩ := (hRest L₁ hL₁).mp ⟨L', hFold, hPass⟩
      obtain ⟨hPass₀, hOk⟩ := hNote.mp ⟨L₁, hL₁, hPass₁⟩
      refine ⟨hPass₀, hOk, fun L₂ hL₂ => ?_⟩
      rw [hL₁] at hL₂
      cases hL₂
      exact hAlong
    · rintro ⟨hPass, hOk, hAlong⟩
      obtain ⟨L₁, hL₁, hPass₁⟩ := hNote.mpr ⟨hPass, hOk⟩
      obtain ⟨L', hFold, hPass'⟩ := (hRest L₁ hL₁).mpr ⟨hPass₁, hAlong L₁ hL₁⟩
      exact ⟨L', foldOps_cons.mpr ⟨L₁, hL₁, hFold⟩, hPass'⟩

/-- A legal transaction on one table is accepted and passes phase 1 exactly when
each of its operations meets `CommitOk`. -/
theorem legal_commits_iff (hTable : ∀ op ∈ ops, OfTable t packed keyset op)
    (hIndex : ∀ op ∈ ops, ∀ n ∈ op.names, keyset ≠ some n)
    (hRendered : ∀ op ∈ ops, op.Rendered now) (hTypes : Typed ops ks)
    (hLegal : Along (WriteOp.exec now) LegalOp ops ks) :
    (∃ L, foldOps ops .empty = .ok L ∧ phase1 ks 1 L.plans = none) ↔
      Along note (CommitOk ks) ops .empty := by
  have hIff := legal_passes_iff hTable hIndex hRendered hTypes [] (List.nil_append ops).symm .empty
    hTypes hLegal
  simp only [phase1_eq_none, ← Ledger.passes_iff]
  rw [hIff]
  exact and_iff_right (Ledger.passes_empty ks)

end Table

/-- A sorted set with one member: its score changes, another member joins it, and
the first one leaves and comes back. -/
def rescoreAndReplace : List WriteOp :=
  [{ kind := .update, relid := 1, tabletype := .zset, key := [0x7a], oldkey := some [0x7a],
     member := some [0x6d], oldmember := some [0x6d], score := some [0x35] },
   { kind := .insert, relid := 1, tabletype := .zset, key := [0x7a], member := some [0x6e],
     score := some [0x36] },
   { kind := .delete, relid := 1, tabletype := .zset, key := [0x7a], member := some [0x6d] },
   { kind := .insert, relid := 1, tabletype := .zset, key := [0x7a], member := some [0x6d],
     score := some [0x37] }]

def oneScore : Keyspace :=
  Function.update (fun _ => none) [0x7a] (some (.zset ⟨Finmap.singleton [0x6d] [0x31], by decide⟩))

theorem legal_commits_iff_rescoreAndReplace : letI := integerScores
    ∃ L, foldOps rescoreAndReplace .empty = .ok L ∧ phase1 oneScore 1 L.plans = none := by
  refine (@legal_commits_iff .zset false none rescoreAndReplace oneScore integerScores 0 ?_ ?_ ?_
    ?_ ?_).mpr ?_
  · decide
  · decide
  · decide
  · decide
  · decide
  · decide

/-- A second member for a key that holds one. -/
def secondMember : List WriteOp :=
  [{ kind := .insert, relid := 1, tabletype := .set, key := [0x6b], member := some [0x62] }]

theorem memberA_ne_empty : ({[0x61]} : Finset Bytes) ≠ ∅ := by decide

def oneMember : Keyspace :=
  Function.update (fun _ => none) [0x6b] (some (.set ⟨{[0x61]}, memberA_ne_empty⟩))

/-- The row is absent, but its key is demanded to be absent as well. -/
theorem second_member_refused : letI := integerScores
    (∀ op ∈ secondMember, OfTable .set false none op) ∧ Typed secondMember oneMember ∧
      Along (WriteOp.exec 0) LegalOp secondMember oneMember ∧
      ∃ L, foldOps secondMember .empty = .ok L ∧
        phase1 oneMember 1 L.plans = some (.fail .conflict 1 [0x6b] (.check 2)) :=
  ⟨by decide, by decide, by decide, _, rfl, by decide⟩

end ValkeyFdw
