import ValkeyFdw.Refine.Sequential

/-!
# Phase 2 after a phase 1 that passes

The type check of every plan is meant to make phase 2 incapable of failing. It
covers the keys of the plans, each with the type of its first operation. Where
every name of a transaction is used with one Valkey type, what is left to fail
is an index that is not a set and a rename whose source is gone
(`program_ok_iff`).
-/

namespace ValkeyFdw

open Server Trace Cell

/-! ## The types of actions -/

/-- The action can be taken on a key of the given type. -/
def Action.HasType (t : ValueType) : Action → Prop
  | .set _ => t = .string
  | .del | .rename _ | .ksetAdd _ _ | .ksetRem _ _ => True
  | .hset _ _ | .hdel _ | .hpexpire _ _ | .hpersist _ => t = .hash
  | .sadd _ | .srem _ => t = .set
  | .zadd _ _ | .zrem _ => t = .zset
  | .rpush _ | .lrem1 _ => t = .list

/-- The source of a rename. -/
def Action.source? : Action → Option Bytes
  | .rename oldkey => some oldkey
  | _ => none

/-- The server accepts the numbers among the action's arguments. -/
def Action.Parses [Doubles] (now : Nat) : Action → Prop
  | .zadd score _ => (Doubles.canon score).isSome
  | .hpexpire _ ms => now + ms ≤ maxExpire
  | _ => True

/-- A rename finds its source. -/
def SourcePresent (ks : Keyspace) (x : Bytes × Action) : Prop :=
  ∀ oldkey ∈ x.2.source?, (ks oldkey).isSome

instance (ks : Keyspace) (x : Bytes × Action) : Decidable (SourcePresent ks x) :=
  inferInstanceAs (Decidable (∀ oldkey ∈ x.2.source?, (ks oldkey).isSome))

section Exec

variable [Doubles] {now : Nat} {k : Bytes} {a : Action} {ks ks' : Keyspace}

/-- The five kinds of action: a write or removal of the whole key, a rename, an
index entry, and an edit of a collection. -/
inductive ActionView (now : Nat) (k : Bytes) : Action → Prop where
  | set (v : Bytes) : ActionView now k (.set v)
  | del : ActionView now k .del
  | rename (oldkey : Bytes) : ActionView now k (.rename oldkey)
  | index {a : Action} {s : Bytes} (f : Finset Bytes → Finset Bytes) (hIndex : a.index = [s])
      (hCells : a.cells k = [s]) (hExec : a.exec now k = onCollection sets s f) :
      ActionView now k a
  | edit {a : Action} {T : Type} (C : Collection T) (f : T → T) (hIndex : a.index = [])
      (hCells : a.cells k = [k]) (hType : ∀ t, a.HasType t ↔ t = C.type)
      (hOk : ∀ ks ks', a.exec now k ks = .ok ks' → onCollection C k f ks = .ok ks')
      (hExec : a.Parses now → a.exec now k = onCollection C k f) : ActionView now k a

theorem Action.view (now : Nat) (k : Bytes) (a : Action) : ActionView now k a := by
  have hEdit : ∀ {a : Action} {T : Type} (C : Collection T) (f : T → T), a.index = [] →
      a.cells k = [k] → (∀ t, a.HasType t ↔ t = C.type) → a.exec now k = onCollection C k f →
      ActionView now k a := by
    intro a T C f hIndex hCells hType hExec
    exact .edit C f hIndex hCells hType (fun _ _ h => hExec ▸ h) fun _ => hExec
  cases a with
  | set v => exact .set v
  | del => exact .del
  | hset f v => exact hEdit hashes _ rfl rfl (fun _ => Iff.rfl) rfl
  | hdel f => exact hEdit hashes _ rfl rfl (fun _ => Iff.rfl) rfl
  | sadd m => exact hEdit sets _ rfl rfl (fun _ => Iff.rfl) rfl
  | srem m => exact hEdit sets _ rfl rfl (fun _ => Iff.rfl) rfl
  | zadd score m =>
    refine .edit zsets (fun z => z.insert m ((Doubles.canon score).getD [])) rfl rfl
      (fun _ => Iff.rfl) ?_ ?_
    · intro ks ks' h
      obtain ⟨x, hx, h⟩ := zadd_ok.mp h
      simpa [hx] using h
    · intro hParses
      obtain ⟨x, hx⟩ := Option.isSome_iff_exists.mp hParses
      funext ks
      simp [exec, Server.zadd, hx]
  | zrem m => exact hEdit zsets _ rfl rfl (fun _ => Iff.rfl) rfl
  | rpush v => exact hEdit lists _ rfl rfl (fun _ => Iff.rfl) rfl
  | lrem1 v => exact hEdit lists _ rfl rfl (fun _ => Iff.rfl) rfl
  | rename oldkey => exact .rename oldkey
  | ksetAdd s m => exact .index (insert m) rfl rfl rfl
  | ksetRem s m => exact .index (fun t => t.erase m) rfl rfl rfl
  | hpexpire f ms =>
    refine .edit hashes (expireField now f ms) rfl rfl (fun _ => Iff.rfl) ?_ ?_
    · intro ks ks' h
      exact (hpexpire_ok.mp h).2
    · intro hParses
      funext ks
      exact if_pos hParses
  | hpersist f => exact hEdit hashes _ rfl rfl (fun _ => Iff.rfl) rfl

theorem Action.exec_total {t : ValueType} (hType : a.HasType t) (hParses : a.Parses now)
    (hKey : HoldsType t (ks k)) (hIndex : ∀ s ∈ a.index, HoldsType .set (ks s))
    (hSource : SourcePresent ks (k, a)) : ∃ ks', a.exec now k ks = .ok ks' := by
  cases a.view now k with
  | set v => exact ⟨_, rfl⟩
  | del => exact ⟨_, rfl⟩
  | rename oldkey =>
    obtain ⟨v, hv⟩ := Option.isSome_iff_exists.mp (hSource oldkey rfl)
    exact ⟨_, rename_ok.mpr ⟨v, hv, rfl⟩⟩
  | index f hs _ hExec =>
    rw [hExec]
    exact onCollection_total (hIndex _ (by simp [hs]))
  | edit C f _ _ hC _ hExec =>
    rw [hExec hParses]
    exact onCollection_total ((hC t).mp hType ▸ hKey)

theorem sourcePresent_of_exec {x : Bytes × Action} (h : execStep now x ks = .ok ks') :
    SourcePresent ks x := by
  obtain ⟨k, a⟩ := x
  intro oldkey hOld
  cases a with
  | rename src =>
    obtain rfl : src = oldkey := by simpa [Action.source?] using hOld
    obtain ⟨v, hv, -⟩ := rename_ok.mp h
    simp [hv]
  | _ => simp [Action.source?] at hOld

end Exec

/-! ## The types of operations -/

namespace WriteOp

/-- The indexes the operation edits. -/
def indexes (op : WriteOp) : List Bytes := if op.editsIndex then op.keyset.toList else []

/-- The names the operation uses, each with the Valkey type it is used with. -/
def uses (op : WriteOp) : List (Bytes × ValueType) :=
  (op.names.map fun n => (n, op.tabletype.valueType)) ++ op.indexes.map fun s => (s, .set)

/-- The numbers of the operation are ones the server accepts: rendering checks
every score, and an interval is far below the largest expiry. -/
structure Rendered [Doubles] (now : Nat) (op : WriteOp) : Prop where
  score : (Doubles.canon (op.score.getD [0x30])).isSome
  ttls : ∀ t ∈ op.ttls, ∀ ms ∈ t.ms, now + ms ≤ maxExpire

instance [Doubles] (now : Nat) (op : WriteOp) : Decidable (op.Rendered now) :=
  decidable_of_iff ((Doubles.canon (op.score.getD [0x30])).isSome ∧
    ∀ t ∈ op.ttls, ∀ ms ∈ t.ms, now + ms ≤ maxExpire)
    ⟨fun h => ⟨h.1, h.2⟩, fun h => ⟨h.score, h.ttls⟩⟩

variable {op : WriteOp}

theorem mem_uses_of_names {n : Bytes} (h : n ∈ op.names) :
    (n, op.tabletype.valueType) ∈ op.uses :=
  List.mem_append_left _ (List.mem_map_of_mem h)

theorem mem_uses_of_indexes {s : Bytes} (h : s ∈ op.indexes) : (s, .set) ∈ op.uses :=
  List.mem_append_right _ (List.mem_map_of_mem h)

end WriteOp

/-- Every name of the transaction is used with one Valkey type. -/
def OneType (ops : List WriteOp) : Prop :=
  ∀ op ∈ ops, ∀ op' ∈ ops, ∀ u ∈ op.uses, ∀ u' ∈ op'.uses, u.1 = u'.1 → u.2 = u'.2

instance (ops : List WriteOp) : Decidable (OneType ops) :=
  inferInstanceAs (Decidable (∀ op ∈ ops, ∀ op' ∈ ops, ∀ u ∈ op.uses, ∀ u' ∈ op'.uses,
    u.1 = u'.1 → u.2 = u'.2))

/-- Every key and every index of the transaction is absent or of the type it is used with. -/
def Typed (ops : List WriteOp) (ks : Keyspace) : Prop :=
  ∀ op ∈ ops, ∀ u ∈ op.uses, HoldsType u.2 (ks u.1)

instance (ops : List WriteOp) (ks : Keyspace) : Decidable (Typed ops ks) :=
  inferInstanceAs (Decidable (∀ op ∈ ops, ∀ u ∈ op.uses, HoldsType u.2 (ks u.1)))

namespace OpAction

variable {op : WriteOp} {a : Action}

theorem hasType (h : OpAction op (op.tabletype = .zset) a) : a.HasType op.tabletype.valueType := by
  cases h with
  | sadd hType =>
    rcases hType with hType | ⟨hType, hz⟩
    · simp [Action.HasType, hType, TableType.valueType]
    · simp [hType] at hz
  | srem hType hz | zadd hType hz | zrem hType hz =>
    rcases hType with hType | hType
    · simp_all [Action.HasType, TableType.valueType]
    · simp_all [Action.HasType, TableType.valueType]
  | _ => simp_all [Action.HasType, TableType.valueType]

theorem parses [Doubles] {now : Nat} {z : Bool} (h : OpAction op z a) (hOp : op.Rendered now) :
    a.Parses now := by
  cases h with
  | zadd hType hz => exact hOp.score
  | hpexpire hType ht hms => exact hOp.ttls _ ht _ hms
  | _ => trivial

theorem index_mem {z : Bool} (h : OpAction op z a) : ∀ s ∈ a.index, s ∈ op.indexes := by
  cases h with
  | ksetAdd hs _ hEdits => simp [Action.index, WriteOp.indexes, hEdits, hs]
  | ksetRem hs _ hEdits => simp [Action.index, WriteOp.indexes, hEdits, hs]
  | _ => simp [Action.index]

/-- What an action leaves in the names it changes has the types they are used with. -/
theorem exec_typed [Doubles] {now : Nat} (h : OpAction op (op.tabletype = .zset) a)
    {ks ks' : Keyspace} (hTyped : ∀ u ∈ op.uses, HoldsType u.2 (ks u.1))
    (hExec : a.exec now op.key ks = .ok ks') :
    ∀ n ∈ a.cells op.key, ∃ t, (n, t) ∈ op.uses ∧ HoldsType t (ks' n) := by
  have hOwn : (op.key, op.tabletype.valueType) ∈ op.uses :=
    WriteOp.mem_uses_of_names List.mem_cons_self
  have hType := h.hasType
  intro n hn
  cases hView : a.view now op.key with
  | set v =>
    obtain rfl : n = op.key := by simpa [Action.cells] using hn
    refine ⟨_, hOwn, ?_⟩
    cases hExec
    rw [show op.tabletype.valueType = .string from hType]
    simp [holdsType_some, Value.type]
  | del =>
    obtain rfl : n = op.key := by simpa [Action.cells] using hn
    refine ⟨_, hOwn, ?_⟩
    cases hExec
    simp [holdsType_none]
  | rename old =>
    obtain ⟨v, hv, rfl⟩ := rename_ok.mp hExec
    cases h with
    | rename hRen hOld =>
    have hSource : (old, op.tabletype.valueType) ∈ op.uses :=
      WriteOp.mem_uses_of_names (by simp [WriteOp.names, hRen, hOld])
    by_cases hnk : n = op.key
    · subst hnk
      refine ⟨_, hOwn, ?_⟩
      simpa [hv] using hTyped _ hSource
    · obtain rfl : n = old := by simpa [Action.cells, hnk] using hn
      refine ⟨_, hSource, ?_⟩
      simp [Function.update_of_ne hnk, holdsType_none]
  | index f hs hCells hEq =>
    obtain rfl : n = _ := by simpa [hCells] using hn
    rw [hEq] at hExec
    exact ⟨.set, WriteOp.mem_uses_of_indexes (h.index_mem n (by simp [hs])),
      onCollection_holdsType hExec⟩
  | edit C f _ hCells hC hOk _ =>
    obtain rfl : n = op.key := by simpa [hCells] using hn
    refine ⟨_, hOwn, ?_⟩
    rw [(hC _).mp hType]
    exact onCollection_holdsType (hOk _ _ hExec)

end OpAction

theorem exists_index_action {op : WriteOp} {s : Bytes} (h : s ∈ op.indexes) (z : Bool) :
    ∃ a ∈ op.actions z, a.index = [s] := by
  have hKeyset : op.keyset = some s := by
    by_cases hEdits : op.editsIndex <;> simp_all [WriteOp.indexes]
  have hEdits : op.editsIndex = true := by
    by_cases hEdits : op.editsIndex <;> simp_all [WriteOp.indexes]
  have hEntry : ∀ k add, ∃ a ∈ op.keysetActions k add, a.index = [s] := by
    intro k add
    cases add <;> simp [WriteOp.keysetActions, hKeyset, Action.index]
  by_cases hRen : op.isRename = true
  · obtain ⟨-, old, hOld, -⟩ := WriteOp.isRename_iff.mp hRen
    obtain ⟨a, ha, hIndex⟩ := hEntry old false
    refine ⟨a, List.mem_append_left _ ?_, hIndex⟩
    simp [WriteOp.renameActions, hOld, hRen, ha]
  · by_cases hDel : op.deletesKey = true
    · obtain ⟨a, ha, hIndex⟩ := hEntry op.key false
      refine ⟨a, List.mem_append_right _ ?_, hIndex⟩
      simp [WriteOp.writeActions, hDel, ha]
    · have hIns : op.kind = .insert := by simpa [WriteOp.editsIndex, hRen, hDel] using hEdits
      obtain ⟨a, ha, hIndex⟩ := hEntry op.key true
      refine ⟨a, List.mem_append_right _ ?_, hIndex⟩
      simp [WriteOp.writeActions, hDel, hIns, ha]

/-! ## The program -/

section Program

variable {ops : List WriteOp} {L : Ledger}

theorem OneType.opAction (hTypes : OneType ops) (hL : L.From ops) {k : Bytes} {a : Action}
    (ha : a ∈ L.actionsOf k) :
    ∃ op ∈ ops, op.key = k ∧ OpAction op (op.tabletype = .zset) a := by
  obtain ⟨op, hOp, op', hOp', rfl, hk', ha⟩ := hL.actions ha
  refine ⟨op, hOp, rfl, ?_⟩
  have hSame : op.tabletype.valueType = op'.tabletype.valueType :=
    hTypes op hOp op' hOp' _ (WriteOp.mem_uses_of_names List.mem_cons_self) _
      (WriteOp.mem_uses_of_names hk') rfl
  have hZset : decide (op'.tabletype = .zset) = decide (op.tabletype = .zset) := by
    rw [decide_eq_decide, ← TableType.valueType_eq_zset, ← TableType.valueType_eq_zset, hSame]
  rw [← hZset]
  exact opAction_of_mem ha

variable {ks ks' : Keyspace} {op : WriteOp} {x : Bytes × Action}

/-- The type checks of phase 1 cover every key of the transaction. -/
theorem OneType.names_typed (hTypes : OneType ops) (hFold : foldOps ops .empty = .ok L)
    (hPass : ∀ plan ∈ L.plans, plan.Passes ks) (hOp : op ∈ ops) {n : Bytes} (hn : n ∈ op.names) :
    HoldsType op.tabletype.valueType (ks n) := by
  have hKey := (foldOps_covers hFold).names op hOp n hn
  obtain ⟨p, hp⟩ := Option.isSome_iff_exists.mp (Ledger.plan?_isSome.mpr hKey)
  obtain ⟨hMem, rfl⟩ := Ledger.mem_of_plan? hp
  obtain ⟨op', hOp', hn', hType⟩ := (Ledger.From.foldOps hFold).types hp
  have hSame : op.tabletype.valueType = p.ttype.valueType := by
    rw [hType]
    exact hTypes op hOp op' hOp' _ (WriteOp.mem_uses_of_names hn) _
      (WriteOp.mem_uses_of_names hn') rfl
  rw [hSame]
  exact (hPass p hMem).type

theorem OneType.typed_start (hTypes : OneType ops) (hFold : foldOps ops .empty = .ok L)
    (hPass : ∀ plan ∈ L.plans, plan.Passes ks)
    (hIndexes : ∀ op ∈ ops, ∀ s ∈ op.indexes, HoldsType .set (ks s)) : Typed ops ks := by
  intro op hOp u hu
  rcases List.mem_append.mp hu with hu | hu
  · obtain ⟨n, hn, rfl⟩ := List.mem_map.mp hu
    exact hTypes.names_typed hFold hPass hOp hn
  · obtain ⟨s, hs, rfl⟩ := List.mem_map.mp hu
    exact hIndexes op hOp s hs

variable [Doubles] {now : Nat}

theorem OneType.typed_action (hTypes : OneType ops) (hOp : op ∈ ops) {a : Action}
    (hAction : OpAction op (op.tabletype = .zset) a) (hTyped : Typed ops ks)
    (hExec : a.exec now op.key ks = .ok ks') : Typed ops ks' := by
  intro op' hOp' u hu
  by_cases hCells : u.1 ∈ a.cells op.key
  · obtain ⟨t, ht, hHolds⟩ := hAction.exec_typed (hTyped op hOp) hExec u.1 hCells
    rw [hTypes op' hOp' op hOp u hu _ ht rfl]
    exact hHolds
  · rw [(Action.localTo now op.key a).frame hExec u.1 hCells]
    exact hTyped op' hOp' u hu

theorem Typed.action_total (hTyped : Typed ops ks) (hOp : op ∈ ops) (hRendered : op.Rendered now)
    {a : Action} (hAction : OpAction op (op.tabletype = .zset) a)
    (hSource : SourcePresent ks (op.key, a)) : ∃ ks', a.exec now op.key ks = .ok ks' := by
  refine Action.exec_total hAction.hasType (hAction.parses hRendered) ?_ ?_ hSource
  · exact hTyped op hOp _ (WriteOp.mem_uses_of_names List.mem_cons_self)
  · intro s hs
    exact hTyped op hOp _ (WriteOp.mem_uses_of_indexes (hAction.index_mem s hs))

theorem OneType.typed_step (hTypes : OneType ops) (hL : L.From ops) (hx : x ∈ planTrace L.plans)
    (hTyped : Typed ops ks) (hExec : execStep now x ks = .ok ks') : Typed ops ks' := by
  rw [Ledger.planTrace_eq] at hx
  obtain ⟨op, hOp, hKey, hAction⟩ := hTypes.opAction hL (Ledger.mem_traceOf.mp hx).2
  rw [execStep, ← hKey] at hExec
  exact hTypes.typed_action hOp hAction hTyped hExec

theorem OneType.step_total (hTypes : OneType ops) (hRendered : ∀ op ∈ ops, op.Rendered now)
    (hL : L.From ops) (hx : x ∈ planTrace L.plans) (hTyped : Typed ops ks)
    (hSource : SourcePresent ks x) :
    ∃ ks', execStep now x ks = .ok ks' := by
  rw [Ledger.planTrace_eq] at hx
  obtain ⟨op, hOp, hKey, hAction⟩ := hTypes.opAction hL (Ledger.mem_traceOf.mp hx).2
  rw [execStep, ← hKey]
  exact hTyped.action_total hOp (hRendered op hOp) hAction hSource

/-- An action on a name that no operation has as a key is an index entry. -/
theorem OneType.index_of_cells (hTypes : OneType ops) (hL : L.From ops) (hx : x ∈ planTrace L.plans)
    {s : Bytes} (hs : ∀ op ∈ ops, s ∉ op.names) (hCells : s ∈ x.2.cells x.1)
    (hExec : execStep now x ks = .ok ks') :
    HoldsType .set (ks s) := by
  rw [Ledger.planTrace_eq] at hx
  obtain ⟨op, hOp, hKey, hAction⟩ := hTypes.opAction hL (Ledger.mem_traceOf.mp hx).2
  rcases x.2.index_cases x.1 with hIndex | ⟨t, hIndex, hOnly⟩
  · rw [Action.cells_of_index_nil hIndex, ← hKey] at hCells
    exact absurd (hAction.within.keys s hCells) (hs op hOp)
  · obtain rfl : s = t := by simpa [hOnly] using hCells
    obtain ⟨m, -, hEq | hEq⟩ := Action.exec_index now x.1 hIndex
    · rw [execStep, hEq] at hExec
      exact onCollection_holdsType_before (C := sets) hExec
    · rw [execStep, hEq] at hExec
      exact onCollection_holdsType_before (C := sets) hExec

/-- A run of the actions that ends found every index to be a set, or absent. -/
theorem OneType.indexes_of_run (hTypes : OneType ops) (hFold : foldOps ops .empty = .ok L)
    (hPass : ∀ plan ∈ L.plans, plan.Passes ks)
    (hRun : run (execStep now) (planTrace L.plans) ks = .ok ks') (hOp : op ∈ ops) {s : Bytes}
    (hs : s ∈ op.indexes) : HoldsType .set (ks s) := by
  by_cases hKey : ∃ op' ∈ ops, s ∈ op'.names
  · obtain ⟨op', hOp', hn⟩ := hKey
    have hSet := hTypes op hOp op' hOp' _ (WriteOp.mem_uses_of_indexes hs) _
      (WriteOp.mem_uses_of_names hn) rfl
    rw [show ValueType.set = op'.tabletype.valueType from hSet]
    exact hTypes.names_typed hFold hPass hOp' hn
  · have hNames : ∀ op' ∈ ops, s ∉ op'.names := fun op' hOp' hn => hKey ⟨op', hOp', hn⟩
    have hL := Ledger.From.foldOps hFold
    obtain ⟨z, hOwn⟩ := (foldOps_covers hFold).own op hOp
    obtain ⟨a, ha, hIndex⟩ := exists_index_action hs z
    have hMem : (op.key, a) ∈ planTrace L.plans := by
      rw [Ledger.planTrace_eq]
      refine Ledger.mem_traceOf.mpr ⟨?_, hOwn a ha⟩
      exact (foldOps_covers hFold).names op hOp _ List.mem_cons_self
    obtain ⟨pre, post, u, v, hSplit, hPre, hStep⟩ := run_mem hMem hRun
    by_contra hNot
    refine absurd ?_ (run_invariant (I := fun ks => ¬HoldsType .set (ks s)) ?_ hNot hPre)
    · refine hTypes.index_of_cells hL hMem hNames ?_ hStep
      rcases a.index_cases op.key with h | ⟨t, ht, hCells⟩
      · simp [h] at hIndex
      · obtain rfl : t = s := by simpa [ht] using hIndex
        simp [hCells]
    · intro x hx ks₁ ks₂ hBad hExec hGood
      have hx' : x ∈ planTrace L.plans := by
        rw [hSplit]
        exact List.mem_append_left _ hx
      by_cases hCells : s ∈ x.2.cells x.1
      · exact hBad (hTypes.index_of_cells hL hx' hNames hCells hExec)
      · rw [(Action.localTo now x.1 x.2).frame hExec s hCells] at hGood
        exact hBad hGood

/-- Where every name is used with one type, a program that passes phase 1
answers OK exactly when its indexes are sets and every rename finds its source. -/
theorem program_ok_iff (hFold : foldOps ops .empty = .ok L)
    (hRendered : ∀ op ∈ ops, op.Rendered now) (hTypes : OneType ops) {ks : Keyspace}
    (hPass : phase1 ks 1 L.plans = none) :
    (runProgram now L.plans ks).1 = .ok L.plans.length ↔
      (∀ op ∈ ops, ∀ s ∈ op.indexes, HoldsType .set (ks s)) ∧
        Along (execStep now) SourcePresent (planTrace L.plans) ks := by
  rw [phase1_eq_none] at hPass
  have hRunOk : (runProgram now L.plans ks).1 = .ok L.plans.length ↔
      ∃ ks', run (execStep now) (planTrace L.plans) ks = .ok ks' := by
    constructor
    · intro h
      exact ⟨_, (runProgram_ok.mp (Prod.ext h rfl)).2.2⟩
    · rintro ⟨ks', h⟩
      rw [runProgram_ok.mpr ⟨rfl, hPass, h⟩]
  rw [hRunOk]
  constructor
  · rintro ⟨ks', hRun⟩
    exact ⟨fun op hOp s hs => hTypes.indexes_of_run hFold hPass hRun hOp hs,
      .of_run (fun _ _ _ h => sourcePresent_of_exec h) hRun⟩
  · rintro ⟨hIndexes, hSources⟩
    have hL := Ledger.From.foldOps hFold
    obtain ⟨ks', hRun, -⟩ := hSources.run_total (I := Typed ops)
      (fun x hx ks₁ hTyped hSource => by
        obtain ⟨ks₂, hExec⟩ := hTypes.step_total hRendered hL hx hTyped hSource
        exact ⟨ks₂, hExec, hTypes.typed_step hL hx hTyped hExec⟩)
      (hTypes.typed_start hFold hPass hIndexes)
    exact ⟨ks', hRun⟩

end Program

/-- An indexed row is inserted and another one renamed. -/
def insertAndRename : List WriteOp :=
  [{ kind := .insert, relid := 1, tabletype := .string, key := [0x78], value := some [0x31],
     keyset := some [0x73] },
   { kind := .update, relid := 1, tabletype := .string, key := [0x62], oldkey := some [0x61],
     value := some [0x32], keyset := some [0x73] }]

/-- A keyspace with one string row and its index. -/
def indexedRow : Keyspace :=
  Function.update (Function.update (fun _ => none) [0x61] (some (.string [0x30])))
    [0x73] (some (.set ⟨{[0x61]}, by decide⟩))

theorem program_ok_iff_insertAndRename : letI := integerScores
    ∃ L, foldOps insertAndRename .empty = .ok L ∧
      (runProgram 0 L.plans indexedRow).1 = .ok L.plans.length := by
  refine ⟨_, rfl, ?_⟩
  exact (@program_ok_iff insertAndRename _ integerScores 0 rfl (by decide) (by decide) indexedRow
    rfl).mpr ⟨by decide, by decide⟩

/-- An indexed row is inserted while the name of its index holds a string. -/
def insertIndexed : List WriteOp :=
  [{ kind := .insert, relid := 1, tabletype := .string, key := [0x78], value := some [0x31],
     keyset := some [0x73] }]

/-- Phase 1 passes, the row is written, and its index entry fails. -/
theorem insert_partially_applied : letI := integerScores
    ∃ L ks', foldOps insertIndexed .empty = .ok L ∧
      phase1 (Function.update (fun _ => none) [0x73] (some (.string []))) 1 L.plans = none ∧
      runProgram 0 L.plans (Function.update (fun _ => none) [0x73] (some (.string []))) =
        (.failed (.fail .internal 1 [0x78] (.action 2 .wrongType)), ks') ∧
      ks' [0x78] = some (.string [0x31]) :=
  ⟨_, _, rfl, rfl, rfl, rfl⟩

end ValkeyFdw
