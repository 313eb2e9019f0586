import ValkeyFdw.Refine.Commute

/-!
# The program and the operations in buffer order

The fold groups the actions of a transaction by key. The result is the one of
executing each operation's own commands in buffer order as long as no operation
is moved across an action that concerns one of its names
(`run_planTrace_iff`). Without renames, with one Valkey type for each key and
with no index among the keys written, that is always so.
-/

namespace ValkeyFdw

open Server Trace

/-- The actions an operation is moved across concern other names than its own. -/
def InOrder (L : Ledger) (op : WriteOp) : Prop :=
  ∀ x ∈ L.traceOf (L.keysAfter op.key), ∀ a ∈ op.actions (L.isZset op), Apart x (op.key, a)

instance (L : Ledger) (op : WriteOp) : Decidable (InOrder L op) :=
  inferInstanceAs (Decidable (∀ x ∈ L.traceOf (L.keysAfter op.key),
    ∀ a ∈ op.actions (L.isZset op), Apart x (op.key, a)))

/-- The fold takes the operation's key for a sorted set exactly when its table is one. -/
def ZsetAgrees (L : Ledger) (op : WriteOp) : Prop := L.isZset op = decide (op.tabletype = .zset)

/-! ## The simulation -/

section Simulation

variable [Doubles] {now : Nat}

/-- The commands of one operation, one after another. -/
def WriteOp.exec (now : Nat) (op : WriteOp) : Command := run (execStep now) op.commands

/-- Each operation's own commands, one operation at a time in buffer order. -/
def execOps (now : Nat) (ops : List WriteOp) : Command := run (WriteOp.exec now) ops

variable {ops : List WriteOp} {ks ks' : Keyspace}

theorem execOps_ok :
    execOps now ops ks = .ok ks' ↔
      run (execStep now) (ops.flatMap WriteOp.commands) ks = .ok ks' := by
  induction ops generalizing ks with
  | nil => rfl
  | cons op ops ih =>
    rw [List.flatMap_cons, run_append_ok, execOps, run_cons_ok]
    exact exists_congr fun u => and_congr_right fun _ => ih

theorem note_run {op : WriteOp} {L L' : Ledger} (h : note op L = .ok L') (hOrder : InOrder L op)
    (hZset : ZsetAgrees L op) :
    run (execStep now) (planTrace L'.plans) ks = .ok ks' ↔
      run (execStep now) (planTrace L.plans ++ op.commands) ks = .ok ks' := by
  obtain ⟨plan, hStep⟩ := note_spec h
  obtain ⟨pre, hBefore, hAfter⟩ := hStep.trace
  have hCommands : (op.actions (L.isZset op)).map (fun a => (op.key, a)) = op.commands := by
    unfold WriteOp.commands
    rw [hZset]
  rw [hBefore, hAfter, hCommands]
  apply run_insert
  intro x hx y hy
  rw [← hCommands] at hy
  obtain ⟨a, ha, rfl⟩ := List.mem_map.mp hy
  exact (hOrder x hx a ha).commute

/-- The program takes the actions of the operations in an order that leads to
the same keyspace as their own commands in buffer order. -/
theorem run_planTrace_iff {L L' : Ledger} (h : foldOps ops L = .ok L')
    (hSteps : Along note (fun L op => InOrder L op ∧ ZsetAgrees L op) ops L) :
    run (execStep now) (planTrace L'.plans) ks = .ok ks' ↔
      run (execStep now) (planTrace L.plans ++ ops.flatMap WriteOp.commands) ks = .ok ks' := by
  induction ops generalizing L with
  | nil =>
    cases h
    simp
  | cons op ops ih =>
    obtain ⟨L₁, hNote, hRest⟩ := foldOps_cons.mp h
    obtain ⟨⟨hOrder, hZset⟩, hTail⟩ := hSteps
    rw [ih hRest (hTail L₁ hNote), List.flatMap_cons, ← List.append_assoc, run_append_ok,
      run_append_ok]
    refine exists_congr fun u => and_congr_left fun _ => ?_
    exact note_run hNote hOrder hZset

/-- A program that answers OK leaves the keyspace its operations lead to in
buffer order, if every one of them was folded in order. -/
theorem execOps_of_runProgram {L : Ledger} (hFold : foldOps ops .empty = .ok L)
    (hSteps : Along note (fun L op => InOrder L op ∧ ZsetAgrees L op) ops .empty) {n : Nat}
    (hOk : runProgram now L.plans ks = (.ok n, ks')) :
    execOps now ops ks = .ok ks' := by
  obtain ⟨-, -, hRun⟩ := runProgram_ok.mp hOk
  rw [run_planTrace_iff hFold hSteps] at hRun
  exact execOps_ok.mpr hRun

end Simulation

/-! ## Where the contents of a ledger come from -/

/-- Every action and every plan type of the ledger comes from one of the operations. -/
structure Ledger.From (ops : List WriteOp) (L : Ledger) : Prop where
  actions : ∀ {k a}, a ∈ L.actionsOf k → ∃ op ∈ ops, ∃ op' ∈ ops, op.key = k ∧ k ∈ op'.names ∧
    a ∈ op.actions (op'.tabletype = .zset)
  types : ∀ {k p}, L.plan? k = some p → ∃ op ∈ ops, k ∈ op.names ∧ p.ttype = op.tabletype

theorem Ledger.From.empty (ops : List WriteOp) : Ledger.empty.From ops where
  actions h := by simp [Ledger.actionsOf, Ledger.plan?, Ledger.empty] at h
  types h := by simp [Ledger.plan?, Ledger.empty] at h

variable {ops : List WriteOp}

theorem Ledger.From.entry_type {L : Ledger} (h : L.From ops) {op : WriteOp} (hOp : op ∈ ops)
    {k : Bytes} (hk : k ∈ op.names) :
    ∃ op' ∈ ops, k ∈ op'.names ∧ (L.entry k op.tabletype).ttype = op'.tabletype := by
  unfold Ledger.entry
  cases hPlan : L.plan? k with
  | none => exact ⟨op, hOp, hk, rfl⟩
  | some p => exact h.types hPlan

theorem Ledger.From.step {L L' : Ledger} {op : WriteOp} (hOp : op ∈ ops) (h : L.From ops)
    (hNote : note op L = .ok L') : L'.From ops := by
  obtain ⟨plan, hStep⟩ := note_spec hNote
  have hOwn : op.key ∈ op.names := List.mem_cons_self
  constructor
  · intro k a ha
    by_cases hk : k = op.key
    · subst hk
      rw [hStep.actionsOf_key] at ha
      rcases List.mem_append.mp ha with ha | ha
      · exact h.actions ha
      · obtain ⟨op', hOp', hk', hType⟩ := h.entry_type hOp hOwn
        rw [Ledger.isZset, hType] at ha
        exact ⟨op, hOp, op', hOp', rfl, hk', ha⟩
    · rw [hStep.actionsOf_other hk] at ha
      exact h.actions ha
  · intro k p hp
    by_cases hNames : k ∈ op.names
    · obtain ⟨op', hOp', hk', hType⟩ := h.entry_type hOp hNames
      refine ⟨op', hOp', hk', ?_⟩
      rw [← hType]
      rcases List.mem_cons.mp hNames with rfl | hOld
      · rw [hStep.plan_key] at hp
        cases hp
        exact hStep.plan_extends.ttype
      · by_cases hRen : op.isRename = true
        · have hOldkey : op.oldkey = some k := by simpa [hRen] using hOld
          rw [hStep.plan_old hRen hOldkey] at hp
          cases hp
          exact (L.sourcePlan_extends op k).ttype
        · simp [hRen] at hOld
    · rw [hStep.plan_other hNames] at hp
      exact h.types hp

theorem Ledger.From.mono {ops' : List WriteOp} (hSub : ops ⊆ ops') {L : Ledger} (h : L.From ops) :
    L.From ops' where
  actions ha := by
    obtain ⟨op, hOp, op', hOp', hRest⟩ := h.actions ha
    exact ⟨op, hSub hOp, op', hSub hOp', hRest⟩
  types hp := by
    obtain ⟨op, hOp, hRest⟩ := h.types hp
    exact ⟨op, hSub hOp, hRest⟩

/-- A condition on each operation that may rely on the operations before it. -/
theorem Ledger.From.along_done {P : Ledger → WriteOp → Prop}
    (h : ∀ done op rest, ops = done ++ op :: rest → ∀ L : Ledger, L.From done → P L op) :
    Along note P ops .empty := by
  suffices hRest : ∀ rest done (L : Ledger), ops = done ++ rest → L.From done →
      Along note P rest L from hRest ops [] .empty rfl (.empty [])
  intro rest
  induction rest with
  | nil => exact fun _ _ _ _ => trivial
  | cons op rest ih =>
    intro done L hOps hL
    refine ⟨h done op rest hOps L hL, fun L' hNote => ?_⟩
    refine ih (done ++ [op]) L' (by simp [hOps]) ?_
    exact (hL.mono (List.subset_append_left done [op])).step (by simp) hNote

/-- An operation stays in order if the operations before it on other keys share
no name with it, and neither writes a name that is the other's index. -/
theorem Ledger.From.inOrder {done : List WriteOp} {L : Ledger} (hL : L.From done) {op : WriteOp}
    (hNames : ∀ o ∈ done, o.key ≠ op.key → ∀ n ∈ o.names, n ∉ op.names)
    (hIndex : ∀ o ∈ done, ∀ n ∈ o.names, op.keyset ≠ some n)
    (hIndex' : ∀ o ∈ done, ∀ n ∈ op.names, o.keyset ≠ some n) : InOrder L op := by
  intro x hx a ha
  obtain ⟨hAfter, hActions⟩ := Ledger.mem_traceOf.mp hx
  obtain ⟨o, ho, _, _, hKey, _, ha'⟩ := hL.actions hActions
  have hWithin := (opAction_of_mem ha).within
  have hWithin' := (opAction_of_mem ha').within
  have hKeys : ∀ n ∈ x.2.keyNames x.1, n ∈ o.names := hKey ▸ hWithin'.keys
  have hne : o.key ≠ op.key := by
    rw [hKey]
    rintro hEq
    exact L.key_notMem_keysAfter op.key (hEq ▸ hAfter)
  constructor
  · intro n hn hn'
    exact hNames o ho hne n (hKeys n hn) (hWithin.keys n hn')
  · intro n hn hn'
    exact hIndex o ho n (hKeys n hn) (hWithin.index n hn')
  · intro n hn hn'
    exact hIndex' o ho n (hWithin.keys n hn') (hWithin'.index n hn)

/-! ## Transactions without renames -/

section NoRenames

variable {ops : List WriteOp}

/-- A transaction without renames that writes each key through tables of one
Valkey type and never writes a key that is an index. -/
structure PlainTransaction (ops : List WriteOp) : Prop where
  noRename : ∀ op ∈ ops, op.isRename = false
  oneType : ∀ op ∈ ops, ∀ op' ∈ ops, op.key = op'.key →
    op.tabletype.valueType = op'.tabletype.valueType
  noIndexKey : ∀ op ∈ ops, ∀ op' ∈ ops, op.keyset ≠ some op'.key

theorem WriteOp.names_of_not_rename {op : WriteOp} (h : op.isRename = false) :
    op.names = [op.key] := by
  simp [names, h]

theorem TableType.valueType_eq_zset {t : TableType} : t.valueType = .zset ↔ t = .zset := by
  cases t <;> simp [valueType]

theorem PlainTransaction.inOrder (hPlain : PlainTransaction ops) {L : Ledger} (hL : L.From ops)
    {op : WriteOp} (hOp : op ∈ ops) : InOrder L op := by
  have hNames : ∀ o ∈ ops, o.names = [o.key] := fun o ho =>
    WriteOp.names_of_not_rename (hPlain.noRename o ho)
  refine hL.inOrder (fun o ho hne n hn hn' => ?_) (fun o ho n hn => ?_) fun o ho n hn => ?_
  · rw [hNames o ho, List.mem_singleton] at hn
    rw [hNames op hOp, List.mem_singleton] at hn'
    exact hne (hn.symm.trans hn')
  · rw [hNames o ho, List.mem_singleton] at hn
    exact hn ▸ hPlain.noIndexKey op hOp o ho
  · rw [hNames op hOp, List.mem_singleton] at hn
    exact hn ▸ hPlain.noIndexKey o ho op hOp

theorem PlainTransaction.zsetAgrees (hPlain : PlainTransaction ops) {L : Ledger}
    (hL : L.From ops) {op : WriteOp} (hOp : op ∈ ops) : ZsetAgrees L op := by
  obtain ⟨op', hOp', hKey', hType⟩ := hL.entry_type hOp (k := op.key) List.mem_cons_self
  rw [WriteOp.names_of_not_rename (hPlain.noRename op' hOp'), List.mem_singleton] at hKey'
  have hSame := hPlain.oneType op hOp op' hOp' hKey'
  unfold ZsetAgrees Ledger.isZset
  rw [hType, decide_eq_decide, ← TableType.valueType_eq_zset, ← TableType.valueType_eq_zset, hSame]

theorem Ledger.From.foldOps {ops : List WriteOp} {L : Ledger} (h : foldOps ops .empty = .ok L) :
    L.From ops :=
  run_invariant (fun _ hOp _ _ hL hNote => hL.step hOp hNote) (.empty ops) h

theorem Ledger.From.along {ops : List WriteOp} {P : Ledger → WriteOp → Prop}
    (h : ∀ L : Ledger, L.From ops → ∀ op ∈ ops, P L op) : Along note P ops .empty :=
  .of_invariant (fun _ hOp _ _ hL hNote => hL.step hOp hNote) (fun op hOp L hL => h L hL op hOp)
    (.empty ops)

theorem along_zsetAgrees {ops : List WriteOp}
    (h : ∀ op ∈ ops, ∀ o ∈ ops, op.key ∈ o.names → o.tabletype = op.tabletype) :
    Along note ZsetAgrees ops .empty := by
  refine Ledger.From.along fun L hL op hOp => ?_
  obtain ⟨o, ho, hk, hType⟩ := hL.entry_type hOp (k := op.key) List.mem_cons_self
  unfold ZsetAgrees Ledger.isZset
  rw [hType, h op hOp o ho hk]

/-- Without renames, with one Valkey type for each key and no index among the
keys written, the program does what the operations do in buffer order. -/
theorem program_eq_buffer_order [Doubles] {now : Nat} (hPlain : PlainTransaction ops) {L : Ledger}
    (hFold : foldOps ops .empty = .ok L) {ks ks' : Keyspace} {n : Nat}
    (hOk : runProgram now L.plans ks = (.ok n, ks')) : execOps now ops ks = .ok ks' := by
  refine execOps_of_runProgram hFold (Ledger.From.along fun L hL op hOp => ?_) hOk
  exact ⟨hPlain.inOrder hL hOp, hPlain.zsetAgrees hL hOp⟩

/-- Two rows of an indexed string table, one of them written twice, and a sorted-set row. -/
def mixedTransaction : List WriteOp :=
  [{ kind := .insert, relid := 1, tabletype := .string, key := [0x61], value := some [0x31],
     keyset := some [0x73] },
   { kind := .insert, relid := 2, tabletype := .zset, key := [0x7a], member := some [0x6d],
     score := some [0x35] },
   { kind := .insert, relid := 1, tabletype := .string, key := [0x62], value := some [0x32],
     keyset := some [0x73] },
   { kind := .update, relid := 1, tabletype := .string, key := [0x61], oldkey := some [0x61],
     value := some [0x33], keyset := some [0x73] }]

theorem program_eq_buffer_order_mixed : letI := integerScores
    ∃ L ks', foldOps mixedTransaction .empty = .ok L ∧
      runProgram 0 L.plans (fun _ => none) = (.ok 3, ks') ∧
      execOps 0 mixedTransaction (fun _ => none) = .ok ks' := by
  refine ⟨_, _, rfl, rfl, ?_⟩
  exact @program_eq_buffer_order _ integerScores 0
    ⟨by decide, by decide, by decide⟩ _ rfl _ _ 3 rfl

end NoRenames

end ValkeyFdw
