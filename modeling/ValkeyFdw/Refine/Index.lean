import ValkeyFdw.Safety.Rows

/-!
# An operation on its key and on its index

An operation that leaves its row in its place edits its own key and then the
table's keyset: an INSERT enters the key there, and a DELETE of a whole key takes
it out. The two parts do not meet as long as the keyset is not a row itself.
-/

namespace ValkeyFdw

open Server Trace

namespace WriteOp

variable (op : WriteOp)

/-- The actions on the operation's own key. -/
def body : List Action :=
  if op.deletesKey then [.del]
  else if op.packedShape then .del :: op.packedActions
  else op.shapeActions (op.tabletype = .zset)

/-- The actions on the index. -/
def indexActions : List Action :=
  if op.deletesKey then op.keysetActions op.key false
  else if op.kind = .insert then op.keysetActions op.key true
  else []

/-- The index after the operation. -/
def index (members : Finset Bytes) : Finset Bytes :=
  if op.deletesKey then members.erase op.key
  else if op.kind = .insert then insert op.key members
  else members

variable {op}

theorem writeActions_eq :
    op.writeActions (op.tabletype = .zset) = op.body ++ op.indexActions := by
  unfold writeActions body indexActions
  split_ifs <;> simp

theorem index_mem_of_ne {members : Finset Bytes} {k : Bytes} (hk : k ≠ op.key) :
    k ∈ op.index members ↔ k ∈ members := by
  unfold index
  split_ifs <;> simp [hk]

end WriteOp

section Exec

variable [Doubles] {now : Nat} {op : WriteOp} {ks ks' : Keyspace}

theorem WriteOp.exec_iff (hRen : op.isRename = false) :
    op.exec now ks = .ok ks' ↔
      ∃ mid, run (execStep now) (op.body.map fun a => (op.key, a)) ks = .ok mid ∧
        run (execStep now) (op.indexActions.map fun a => (op.key, a)) mid = .ok ks' := by
  rw [WriteOp.exec, WriteOp.commands, WriteOp.actions, WriteOp.renameActions_of_not hRen,
    List.nil_append, WriteOp.writeActions_eq, List.map_append, run_append_ok]

/-- The index part of an operation can always be taken on a set, and changes nothing else. -/
theorem WriteOp.run_indexActions (hIndex : ∀ s, op.keyset = some s → HoldsType .set (ks s)) :
    ∃ ks', run (execStep now) (op.indexActions.map fun a => (op.key, a)) ks = .ok ks' ∧
      (∀ k, op.keyset ≠ some k → ks' k = ks k) ∧
      ∀ s members, op.keyset = some s → sets.read (ks s) = some members →
        sets.read (ks' s) = some (op.index members) := by
  have hKeyset : ∀ add, ∃ ks',
      run (execStep now) ((op.keysetActions op.key add).map fun a => (op.key, a)) ks = .ok ks' ∧
      (∀ k, op.keyset ≠ some k → ks' k = ks k) ∧
      ∀ s members, op.keyset = some s → sets.read (ks s) = some members →
        sets.read (ks' s) =
          some (if add then insert op.key members else members.erase op.key) := by
    intro add
    unfold WriteOp.keysetActions
    cases hs : op.keyset with
    | none => exact ⟨ks, rfl, fun _ _ => rfl, by simp⟩
    | some s =>
      obtain ⟨members, hRead⟩ := (sets.read_iff _).mpr (hIndex s hs)
      have hExec : ∀ f : Finset Bytes → Finset Bytes,
          onCollection sets s f ks = .ok (Function.update ks s (sets.write (f members))) :=
        fun f => onCollection_ok.mpr ⟨members, hRead, rfl⟩
      have hAfter : ∀ f : Finset Bytes → Finset Bytes,
          (∀ k, some s ≠ some k → Function.update ks s (sets.write (f members)) k = ks k) ∧
          ∀ s' members', some s = some s' → sets.read (ks s') = some members' →
            sets.read (Function.update ks s (sets.write (f members)) s') = some (f members') := by
        intro f
        refine ⟨fun k hk => Function.update_of_ne (by simpa [eq_comm] using hk) _ _, ?_⟩
        rintro s' members' ⟨⟩ hRead'
        rw [hRead, Option.some.injEq] at hRead'
        rw [Function.update_self, sets.read_write, hRead']
      cases add with
      | true => exact ⟨_, (run_singleton _ _).trans (hExec _), hAfter fun t => insert op.key t⟩
      | false => exact ⟨_, (run_singleton _ _).trans (hExec _), hAfter fun t => t.erase op.key⟩
  unfold WriteOp.indexActions WriteOp.index
  split_ifs
  · exact hKeyset false
  · exact hKeyset true
  · exact ⟨ks, rfl, fun _ _ => rfl, fun _ _ _ h => h⟩

end Exec

theorem WriteOp.body_plain {op : WriteOp} {a : Action} (ha : a ∈ op.body) :
    a.cells op.key = [op.key] ∧ a.index = [] := by
  -- The body does not depend on the old name or the index, and without them no action names another key.
  have hMem : a ∈ ({ op with oldkey := none, keyset := none } : WriteOp).actions
      (op.tabletype = .zset) := by
    refine List.mem_append_right _ ?_
    rw [@WriteOp.writeActions_eq { op with oldkey := none, keyset := none }]
    exact List.mem_append_left _ ha
  cases opAction_of_mem hMem with
  | rename hRen _ => simp [WriteOp.isRename] at hRen
  | ksetAdd hs _ _ => cases hs
  | ksetRem hs _ _ => cases hs
  | _ => exact ⟨rfl, rfl⟩

theorem WriteOp.body_cells {op : WriteOp} {a : Action} (ha : a ∈ op.body) :
    a.cells op.key = [op.key] := (WriteOp.body_plain ha).1

section Effect

variable [Doubles] {now : Nat} {op : WriteOp} {ks ks' : Keyspace}

/-- What an operation that leaves its row in its place does: its body to its own
key, the index entry to the index, and nothing to any other key. -/
structure WriteOp.Effect (now : Nat) (op : WriteOp) (ks ks' : Keyspace) : Prop where
  own : ∃ mid, run (execStep now) (op.body.map fun a => (op.key, a)) ks = .ok mid ∧
    ks' op.key = mid op.key
  frame : ∀ k, k ≠ op.key → op.keyset ≠ some k → ks' k = ks k
  index : ∀ s members, op.keyset = some s → sets.read (ks s) = some members →
    sets.read (ks' s) = some (op.index members)

theorem WriteOp.exec_effect (hRen : op.isRename = false) (hIndex : op.keyset ≠ some op.key)
    (hExec : op.exec now ks = .ok ks') (hSet : ∀ s, op.keyset = some s → HoldsType .set (ks s)) :
    op.Effect now ks ks' := by
  obtain ⟨mid, hBody, hRest⟩ := (WriteOp.exec_iff hRen).mp hExec
  have hMid : ∀ k, k ≠ op.key → mid k = ks k := fun k hk =>
    run_actions_frame (fun a ha => by simpa [WriteOp.body_cells ha] using hk) hBody
  have hKeyset : ∀ s, op.keyset = some s → mid s = ks s :=
    fun s hs => hMid s fun h => hIndex (h ▸ hs)
  obtain ⟨ks₁, hRun, hFrame, hAfter⟩ := @WriteOp.run_indexActions _ now op mid
    fun s hs => hKeyset s hs ▸ hSet s hs
  rw [hRun, Except.ok.injEq] at hRest
  subst hRest
  exact ⟨⟨mid, hBody, hFrame _ hIndex⟩, fun k hk hk' => (hFrame k hk').trans (hMid k hk),
    fun s members hs hRead => hAfter s members hs (by rwa [hKeyset s hs])⟩

theorem WriteOp.exec_indexed (hKind : op.kind = .insert) (hIndex : op.keyset ≠ some op.key)
    (hExec : op.exec now ks = .ok ks') {s : Bytes} (hs : op.keyset = some s) :
    HoldsType .set (ks s) := by
  have hRen : op.isRename = false := by simp [WriteOp.isRename, hKind]
  obtain ⟨mid, hBody, hRest⟩ := (WriteOp.exec_iff hRen).mp hExec
  have hMid : mid s = ks s := run_actions_frame (fun a ha => by
    rw [WriteOp.body_cells ha, List.mem_singleton]
    exact fun h => hIndex (h ▸ hs)) hBody
  have hAdd : op.indexActions = [.ksetAdd s op.key] := by
    simp [WriteOp.indexActions, WriteOp.deletesKey, WriteOp.keysetActions, hKind, hs]
  rw [hAdd, List.map_singleton, run_singleton] at hRest
  obtain ⟨members, hRead, -⟩ := onCollection_ok.mp
    (show onCollection sets s (insert op.key) mid = .ok ks' from hRest)
  rw [hMid] at hRead
  exact (sets.read_iff _).mp ⟨members, hRead⟩

theorem WriteOp.exec_of_body (hRen : op.isRename = false) (hIndex : op.keyset ≠ some op.key)
    (hSet : ∀ s, op.keyset = some s → HoldsType .set (ks s)) {mid : Keyspace}
    (hBody : run (execStep now) (op.body.map fun a => (op.key, a)) ks = .ok mid) :
    ∃ ks', op.exec now ks = .ok ks' := by
  have hKeyset : ∀ s, op.keyset = some s → mid s = ks s := fun s hs =>
    run_actions_frame (fun a ha => by
      rw [WriteOp.body_cells ha, List.mem_singleton]
      exact fun h => hIndex (h ▸ hs)) hBody
  obtain ⟨ks', hRun, -, -⟩ := @WriteOp.run_indexActions _ now op mid
    fun s hs => hKeyset s hs ▸ hSet s hs
  exact ⟨ks', (WriteOp.exec_iff hRen).mpr ⟨mid, hBody, hRun⟩⟩

end Effect

/-! ## An operation that has its key to itself -/

/-- The operation `o` names neither the key of `op` nor its index. -/
structure WriteOp.Avoids (op o : WriteOp) : Prop where
  key : op.key ∉ o.names
  index : o.keyset ≠ some op.key
  names : ∀ s, op.keyset = some s → s ∉ o.names

section Alone

variable {op : WriteOp} {before after : List WriteOp} {L : Ledger}

/-- The plan of the key holds the actions of the operation and no others. -/
theorem actionsOf_alone (hFold : foldOps (before ++ op :: after) .empty = .ok L)
    (hAlone : ∀ o ∈ before ++ after, op.Avoids o) :
    L.actionsOf op.key = op.actions (op.tabletype = .zset) := by
  obtain ⟨L₁, hBefore, hRest⟩ := run_append_ok.mp hFold
  obtain ⟨L₂, hNote, hAfter⟩ := run_cons_ok.mp hRest
  have hNone : L₁.plan? op.key = none :=
    (foldOps_plan? hBefore).mpr fun o ho => (hAlone o (List.mem_append_left _ ho)).key
  obtain ⟨plan, hStep⟩ := note_spec hNote
  have hOwn : L₂.actionsOf op.key = op.actions (op.tabletype = .zset) := by
    have hFresh : L₁.actionsOf op.key = [] := by rw [Ledger.actionsOf, hNone]; rfl
    have hZset : L₁.isZset op = decide (op.tabletype = .zset) := by
      rw [Ledger.isZset, Ledger.entry, hNone]
      rfl
    rw [hStep.actionsOf_key, hFresh, hZset, List.nil_append]
  rw [← hOwn]
  refine run_frame (g := fun L : Ledger => L.actionsOf op.key)
    (fun o ho L L' h => ?_) hAfter
  obtain ⟨plan, hStep⟩ := note_spec h
  refine hStep.actionsOf_other fun hKey => ?_
  exact (hAlone o (List.mem_append_right _ ho)).key (hKey ▸ List.mem_cons_self)

variable [Doubles] {now : Nat} {ks ks' : Keyspace}

/-- A command of another operation leaves the entry of the key in the index. -/
theorem WriteOp.Avoids.keeps_entry {o : WriteOp} (h : op.Avoids o) {z : Bool} {a : Action}
    (ha : OpAction o z a) (hExec : a.exec now o.key ks = .ok ks') {s : Bytes}
    (hs : op.keyset = some s)
    (hIn : ∃ members, sets.read (ks s) = some members ∧ op.key ∈ members) :
    ∃ members, sets.read (ks' s) = some members ∧ op.key ∈ members := by
  obtain ⟨members, hRead, hMem⟩ := hIn
  by_cases hCell : s ∈ a.cells o.key
  · have hEdit : ∀ {s' k : Bytes} {f : Finset Bytes → Finset Bytes}, s ∈ [s'] → k ∈ o.names →
        onCollection sets s' f ks = .ok ks' → (∀ t, op.key ∈ t → op.key ∈ f t) →
        ∃ members, sets.read (ks' s) = some members ∧ op.key ∈ members := by
      intro s' k f hs' hk hExec hf
      obtain rfl := List.mem_singleton.mp hs'
      obtain ⟨t, ht, rfl⟩ := onCollection_ok.mp hExec
      rw [hRead, Option.some.injEq] at ht
      subst ht
      exact ⟨f members, by rw [Function.update_self, sets.read_write], hf members hMem⟩
    have hName := h.names s hs
    have hOwn : o.key ∈ o.names := List.mem_cons_self
    cases ha with
    | ksetAdd _ hk _ => exact hEdit hCell hk hExec fun t => Finset.mem_insert_of_mem
    | @ksetRem s' k _ hk _ =>
      refine hEdit hCell hk hExec fun t ht => Finset.mem_erase.mpr ⟨?_, ht⟩
      rintro rfl
      exact h.key hk
    | @rename old hRen hOld =>
      have hSource : old ∈ o.names := by simp [WriteOp.names, hRen, hOld]
      rcases List.mem_cons.mp hCell with rfl | hCell
      · exact absurd hSource hName
      · exact absurd (List.mem_singleton.mp hCell ▸ hOwn) hName
    | _ => exact absurd (List.mem_singleton.mp hCell ▸ hOwn) hName
  · rw [← (Action.localTo now o.key a).frame hExec s hCell] at hRead
    exact ⟨members, hRead, hMem⟩

/-- The program executes the operation in a state where its key is as it was, and
afterwards leaves its key and its entry in the index alone. -/
theorem exec_alone (hFold : foldOps (before ++ op :: after) .empty = .ok L)
    (hAlone : ∀ o ∈ before ++ after, op.Avoids o)
    {n : Nat} (hOk : runProgram now L.plans ks = (.ok n, ks')) :
    ∃ ks₁ ks₂, op.exec now ks₁ = .ok ks₂ ∧ ks₁ op.key = ks op.key ∧ ks' op.key = ks₂ op.key ∧
      ∀ s, op.keyset = some s →
        (∃ members, sets.read (ks₂ s) = some members ∧ op.key ∈ members) →
        ∃ members, sets.read (ks' s) = some members ∧ op.key ∈ members := by
  obtain ⟨-, -, hRun⟩ := runProgram_ok.mp hOk
  have hKeys : op.key ∈ L.keys :=
    (foldOps_covers hFold).names op (by simp) op.key List.mem_cons_self
  obtain ⟨as, bs, hSplit, has⟩ := List.eq_append_cons_of_mem hKeys
  have hbs : op.key ∉ bs := by
    have hNodup : L.keys.Nodup := L.nodup
    rw [hSplit, List.nodup_append] at hNodup
    exact (List.nodup_cons.mp hNodup.2.1).1
  have hTrace : L.traceOf (op.key :: bs) = op.commands ++ L.traceOf bs := by
    simp [Ledger.traceOf, WriteOp.commands, actionsOf_alone hFold hAlone]
  rw [Ledger.planTrace_eq, hSplit, Ledger.traceOf_append, hTrace] at hRun
  obtain ⟨ks₁, hBefore, hRun⟩ := run_append_ok.mp hRun
  obtain ⟨ks₂, hOwn, hAfter⟩ := run_append_ok.mp hRun
  -- The commands of the other plans come from other operations.
  have hOther : ∀ {keys : List Bytes}, op.key ∉ keys → ∀ x ∈ L.traceOf keys,
      ∃ o z, op.Avoids o ∧ x.1 = o.key ∧ OpAction o z x.2 := by
    intro keys hNot x hx
    obtain ⟨hMem, hAction⟩ := Ledger.mem_traceOf.mp hx
    obtain ⟨o, ho, o', -, hKey, -, ha⟩ := (Ledger.From.foldOps hFold).actions hAction
    refine ⟨o, _, hAlone o ?_, hKey.symm, opAction_of_mem ha⟩
    simp only [List.mem_append, List.mem_cons] at ho ⊢
    rcases ho with ho | rfl | ho
    · exact .inl ho
    · exact absurd (hKey ▸ hMem) hNot
    · exact .inr ho
  have hFrame : ∀ {keys : List Bytes}, op.key ∉ keys → ∀ {cur cur' : Keyspace},
      run (execStep now) (L.traceOf keys) cur = .ok cur' → cur' op.key = cur op.key := by
    intro keys hNot cur cur' hRun
    refine run_frame (g := fun ks : Keyspace => ks op.key) (fun x hx u v hExec => ?_) hRun
    obtain ⟨o, z, hAvoids, hKey, hAction⟩ := hOther hNot x hx
    refine (Action.localTo now x.1 x.2).frame hExec op.key fun hCell => ?_
    rw [hKey] at hCell
    exact (hAction.cells hCell).elim hAvoids.key hAvoids.index
  refine ⟨ks₁, ks₂, hOwn, hFrame has hBefore, hFrame hbs hAfter, fun s hs hIn => ?_⟩
  refine run_invariant (I := fun ks : Keyspace =>
    ∃ members, sets.read (ks s) = some members ∧ op.key ∈ members) ?_ hIn hAfter
  intro x hx u v hu hExec
  obtain ⟨o, z, hAvoids, hKey, hAction⟩ := hOther hbs x hx
  rw [execStep, hKey] at hExec
  exact hAvoids.keeps_entry hAction hExec hs hu

end Alone

end ValkeyFdw
