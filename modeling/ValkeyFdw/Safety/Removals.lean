import ValkeyFdw.Lib.Deficit
import ValkeyFdw.Safety.Rows

/-!
# Removals from a list

The rows of a list table are its elements, so a DELETE removes one occurrence of a
value and an INSERT pushes one. The flush checks all removals at once, against the
list as it finds it: a check asks for as many occurrences of a value as the
transaction removes before it has pushed them itself. The ledger keeps that number
as a `Deficit.Tally` of the value, and the checks hold exactly if every `LREM` of the
transaction then removes an element.
-/

namespace ValkeyFdw

open Trace Server Deficit

/-! ## Element rows -/

/-- An INSERT or DELETE of one element of the list `k`. -/
structure WriteOp.OnElement (k : Bytes) (op : WriteOp) : Prop where
  key : op.key = k
  type : op.tabletype = .list
  shape : op.packedShape = false
  kind : op.kind ≠ .update

/-- What the operation does to the occurrences of its element. -/
def WriteOp.moves (op : WriteOp) : List (Move Bytes) :=
  op.member.toList.map fun v => if op.kind = .delete then .take v else .put v

/-- The commands on elements among those of a plan. -/
def Action.onElement : Action → Bool
  | .rpush _ | .lrem1 _ => true
  | .set _ | .del | .hset .. | .hdel _ | .sadd _ | .srem _ | .zadd .. | .zrem _ | .rename _
  | .ksetAdd .. | .ksetRem .. | .hpexpire .. | .hpersist _ => false

/-- The `RPUSH` and `LREM` commands of the flush, in order. -/
def Ledger.elementTrace (L : Ledger) : List (Bytes × Action) :=
  (planTrace L.plans).filter fun x => x.2.onElement

/-- All checks on the number of occurrences hold. -/
def Ledger.CountsHold (ks : Keyspace) (L : Ledger) : Prop :=
  ∀ plan ∈ L.plans, ∀ v n, .lvalueCountGe v n ∈ plan.checks →
    (Check.lvalueCountGe v n).Holds plan.key ks

/-- The number of elements under a key: the answer of `LLEN`. -/
def llen (e : Option Value) : Nat := ((lists.read e).map List.length).getD 0

/-- The commands run in order, and every `LREM` among them removes one element. -/
def RemovesEach [Doubles] (now : Nat) : List (Bytes × Action) → Keyspace → Prop
  | [], _ => True
  | x :: xs, ks => ∃ ks', execStep now x ks = .ok ks' ∧
      (∀ v, x.2 = .lrem1 v → llen (ks' x.1) + 1 = llen (ks x.1)) ∧ RemovesEach now xs ks'

/-! ## What the ledger records -/

section Record

variable {k : Bytes} {op : WriteOp} {L L' : Ledger} {plan : Plan}

/-- The tally of a value in the ledger. -/
def Ledger.tally (L : Ledger) (k v : Bytes) : Tally :=
  ⟨((L.members k v).getD {}).count, ((L.members k v).getD {}).presentRemovals⟩

theorem WriteOp.OnElement.not_deletesKey (h : op.OnElement k) : op.deletesKey = false := by
  simp [deletesKey, h.type, h.shape]

theorem WriteOp.OnElement.not_rename (h : op.OnElement k) : op.isRename = false := by
  simp [isRename, h.kind]

theorem tally_step (hStep : NoteStep op L L' plan) (hOp : op.OnElement k) :
    L'.tally k = tallies op.moves (L.tally k) := by
  have hRecord : L'.members = op.recordElement L.members := by
    rw [hStep.members_eq]
    simp [WriteOp.record, hOp.not_deletesKey, hOp.shape, hOp.type]
  funext x
  rw [WriteOp.moves, Ledger.tally, hRecord, WriteOp.recordElement, hOp.key]
  cases op.member with
  | none => rfl
  | some v =>
    simp only [Option.toList_some, List.map_singleton, tallies, List.foldl_cons, List.foldl_nil,
      Members.enter, Function.update_self]
    by_cases hx : x = v
    · subst hx
      by_cases hDel : op.kind = .delete
      · by_cases hCount : 0 < ((L.members k x).getD {}).count <;>
          simp [hDel, hCount, Move.tally, Tally.take, Ledger.tally]
      · simp only [hDel, if_false, Move.tally, Function.update_self, Option.getD_some, Tally.put,
          Ledger.tally]
    · by_cases hDel : op.kind = .delete <;>
        simp [hDel, Move.tally, hx, Ledger.tally]

/-- The counts a plan asks for are those up to the number that is missing. -/
def Plan.Asks (plan : Plan) (t : Bytes → Tally) : Prop :=
  ∀ v n, .lvalueCountGe v n ∈ plan.checks ↔ 0 < n ∧ n ≤ (t v).missing

theorem foldList_asks (hOp : op.OnElement k) (h : plan.Asks (L.tally k)) :
    (foldList op plan L.members).1.Asks (tallies op.moves (L.tally k)) := by
  intro x n
  unfold foldList WriteOp.moves
  rw [hOp.key]
  cases op.member with
  | none => exact h x n
  | some v =>
    simp only [Option.toList_some, List.map_singleton, tallies, List.foldl_cons, List.foldl_nil]
    have hx := h x n
    by_cases hDel : op.kind = .delete
    · by_cases hCount : 0 < ((L.members k v).getD {}).count
      · by_cases hxv : x = v
        · subst hxv
          simpa [hDel, hCount, Plan.addAction, Move.tally, Tally.take, Ledger.tally] using hx
        · simpa [hDel, hCount, Plan.addAction, Move.tally, hxv] using hx
      · by_cases hxv : x = v
        · subst hxv
          simp only [hDel, hCount, if_true, if_false, Plan.addAction, Plan.addCheck, List.mem_append,
            List.mem_singleton, hx, Check.lvalueCountGe.injEq, true_and, Move.tally,
            Function.update_self, Tally.take, Ledger.tally]
          omega
        · simpa [hDel, hCount, Plan.addAction, Plan.addCheck, Move.tally, hxv] using hx
    · by_cases hxv : x = v
      · subst hxv
        simpa [hDel, Plan.addAction, Move.tally, Tally.put] using hx
      · simpa [hDel, Plan.addAction, Move.tally, hxv] using hx

theorem startPlan_asks (hOp : op.OnElement k) (hEntry : (L.entry k .list).Asks (L.tally k)) :
    (L.startPlan op).Asks (L.tally k) := by
  intro v n
  rw [← hEntry v n]
  unfold Ledger.startPlan
  rw [(Plan.foldRename_same _ op).1, hOp.key, hOp.type]
  unfold Plan.precondition
  split
  · split <;> simp [Plan.addCheck, (Plan.addRelid_same (L.entry k .list) op.relid).1]
  · rw [(Plan.addRelid_same (L.entry k .list) op.relid).1]

/-- A ledger of operations on the elements of one list. -/
structure Ledger.OfList (k : Bytes) (L : Ledger) : Prop where
  keys : ∀ j ∈ L.keys, j = k
  type : ∀ p, L.plan? k = some p → p.ttype = .list
  asks : (L.entry k .list).Asks (L.tally k)

theorem Ledger.OfList.empty : Ledger.empty.OfList k where
  keys _ hj := absurd hj List.not_mem_nil
  type p hp := by simp [plan?, Ledger.empty] at hp
  asks v n := by
    simp only [entry, plan?, Ledger.empty, List.find?_nil, Option.getD_none, Plan.fresh, tally,
      List.mem_singleton, reduceCtorEq, false_iff]
    omega

/-- The command of a move. -/
def command (k : Bytes) : Move Bytes → Bytes × Action
  | .put v => (k, .rpush v)
  | .take v => (k, .lrem1 v)

theorem filter_actions (hOp : op.OnElement k) (z : Bool) :
    ((op.actions z).map fun a => (op.key, a)).filter (fun x => x.2.onElement) =
      op.moves.map (command k) := by
  have hKeyset : ∀ add, (op.keysetActions op.key add).filter Action.onElement = [] := by
    intro add
    unfold WriteOp.keysetActions
    cases op.keyset with
    | none => rfl
    | some s => cases add <;> rfl
  have hShape : op.listActions.map (fun a => (k, a)) = op.moves.map (command k) := by
    unfold WriteOp.listActions WriteOp.moves
    cases op.member with
    | none => rfl
    | some v => by_cases hDel : op.kind = .delete <;> simp [hDel, command]
  have hElement : op.listActions.filter Action.onElement = op.listActions := by
    unfold WriteOp.listActions
    cases op.member with
    | none => rfl
    | some v => by_cases hDel : op.kind = .delete <;> simp [hDel, Action.onElement]
  have hActions : (op.actions z).filter Action.onElement = op.listActions := by
    rw [WriteOp.actions, WriteOp.renameActions_of_not hOp.not_rename, WriteOp.writeActions,
      hOp.not_deletesKey, hOp.shape, WriteOp.shapeActions, hOp.type]
    simp only [Bool.false_eq_true, if_false, List.nil_append, List.filter_append, hElement]
    split
    · rw [hKeyset, List.append_nil]
    · rw [List.filter_nil, List.append_nil]
  rw [List.filter_map, ← hShape, ← hActions, hOp.key]
  rfl

theorem note_element (hL : L.OfList k) (hOp : op.OnElement k) :
    ∃ L', note op L = .ok L' ∧ L'.OfList k ∧ L'.tally k = tallies op.moves (L.tally k) ∧
      L'.elementTrace = L.elementTrace ++ op.moves.map (command k) := by
  have hDup : checkDuplicate ((L.entry op.key op.tabletype).addRelid op.relid) op
      (L.plan? op.key).isNone = .ok () := by
    refine checkDuplicate_ok.mpr fun _ p hp hString => ?_
    rw [hOp.key] at hp
    rw [hL.type p hp] at hString
    cases hString
  have hWrite : foldWrite op (L.startPlan op) L.members =
      .ok ((foldList op (L.startPlan op) L.members).1.finish op,
        (foldList op (L.startPlan op) L.members).2) := by
    simp only [foldWrite, hOp.not_deletesKey, hOp.shape, foldShape, hOp.type]
    rfl
  obtain ⟨L', hNote, hStep⟩ := note_total hDup hWrite
  have hTally := tally_step hStep hOp
  have hPlan := hStep.plan_key
  rw [hOp.key] at hPlan
  refine ⟨L', hNote, ⟨?_, ?_, ?_⟩, hTally, ?_⟩
  · intro j hj
    rw [hStep.keys, List.mem_append] at hj
    rcases hj with hj | hj
    · exact hL.keys j hj
    · have hName := List.mem_of_mem_filter hj
      simpa [WriteOp.names, hOp.not_rename, hOp.key] using hName
  · intro p hp
    rw [hPlan] at hp
    cases hp
    rw [hStep.plan_extends.ttype, Ledger.entry, hOp.key]
    cases hEntry : L.plan? k with
    | none => exact hOp.type
    | some p => exact hL.type p hEntry
  · intro v n
    rw [Ledger.entry, hPlan, Option.getD_some, Plan.finish_checks, hTally]
    exact foldList_asks hOp (startPlan_asks hOp hL.asks) v n
  · have hAfter : L.keysAfter op.key = [] := by
      refine List.eq_nil_iff_forall_not_mem.mpr fun j hj => ?_
      have hKey := hL.keys j ((List.dropWhile_suffix _).subset (List.mem_of_mem_tail hj))
      rw [hKey, ← hOp.key] at hj
      exact L.key_notMem_keysAfter op.key hj
    obtain ⟨pre, hBefore, hTrace⟩ := hStep.trace
    rw [hAfter] at hBefore hTrace
    rw [Ledger.elementTrace, Ledger.elementTrace, hBefore, hTrace]
    simp only [Ledger.traceOf, List.flatMap_nil, List.append_nil, List.filter_append,
      filter_actions hOp]

theorem foldOps_elements {ops : List WriteOp} (hL : L.OfList k)
    (hOps : ∀ op ∈ ops, op.OnElement k) :
    ∃ L', foldOps ops L = .ok L' ∧ L'.OfList k ∧
      L'.tally k = tallies (ops.flatMap WriteOp.moves) (L.tally k) ∧
      L'.elementTrace = L.elementTrace ++ (ops.flatMap WriteOp.moves).map (command k) := by
  induction ops generalizing L with
  | nil => exact ⟨L, rfl, hL, rfl, by simp⟩
  | cons op ops ih =>
    obtain ⟨hOp, hOps⟩ := List.forall_mem_cons.mp hOps
    obtain ⟨L₁, hNote, hL₁, hTally₁, hTrace₁⟩ := note_element hL hOp
    obtain ⟨L', hFold, hL', hTally, hTrace⟩ := ih hL₁ hOps
    refine ⟨L', foldOps_cons.mpr ⟨L₁, hNote, hFold⟩, hL', ?_, ?_⟩
    · rw [hTally, hTally₁, List.flatMap_cons, tallies, tallies, tallies, List.foldl_append]
    · rw [hTrace, hTrace₁, List.flatMap_cons, List.map_append, List.append_assoc]

/-- The checks ask for what is missing of every value. -/
theorem countsHold_iff {ks : Keyspace} (hL : L.OfList k) (hType : HoldsType .list (ks k)) :
    L.CountsHold ks ↔ ∀ v, (L.tally k v).missing ≤ occurrences (ks k) v := by
  constructor
  · intro hHold v
    by_cases hMissing : (L.tally k v).missing = 0
    · omega
    · have hAsk := (hL.asks v _).mpr ⟨Nat.pos_of_ne_zero hMissing, le_rfl⟩
      unfold Ledger.entry at hAsk
      cases hPlan : L.plan? k with
      | none => simp [hPlan, Plan.fresh] at hAsk
      | some p =>
        rw [hPlan] at hAsk
        obtain ⟨hp, hKey⟩ := Ledger.mem_of_plan? hPlan
        have hHolds := hHold p hp v _ hAsk
        rw [hKey] at hHolds
        exact (lvalueCountGe_holds hType).mp hHolds
  · intro hAll p hp v n hCheck
    have hKey : p.key = k := hL.keys _ (List.mem_map_of_mem hp)
    have hPlan : L.entry k .list = p := by
      rw [Ledger.entry, ← hKey, Ledger.plan?_of_mem hp, Option.getD_some]
    rw [hKey]
    rw [← hPlan] at hCheck
    exact (lvalueCountGe_holds hType).mpr (((hL.asks v n).mp hCheck).2.trans (hAll v))

end Record

/-! ## Running the commands -/

section Run

variable [Doubles] {now : Nat} {k : Bytes}

omit [Doubles] in
theorem llen_of_lists {e : Option Value} {t : List Bytes} (h : lists.read e = some t) :
    llen e = t.length := by
  rw [llen, h]
  rfl

theorem llen_lrem1 {v : Bytes} {ks ks' : Keyspace} (h : execStep now (k, .lrem1 v) ks = .ok ks') :
    llen (ks' k) + 1 = llen (ks k) ↔ 0 < occurrences (ks k) v := by
  obtain ⟨t, ht, rfl⟩ := (onCollection_ok (C := lists)).mp h
  rw [Function.update_self, llen_of_lists (lists.read_write _), llen_of_lists ht,
    occurrences_of_lists ht, List.count_pos_iff, List.length_erase]
  by_cases hv : v ∈ t
  · have := List.length_pos_of_mem hv
    simp only [hv, if_true, iff_true]
    omega
  · simp [hv]

theorem removesEach_iff (moves : List (Move Bytes)) {ks : Keyspace}
    (hType : HoldsType .list (ks k)) :
    RemovesEach now (moves.map (command k)) ks ↔ Served moves (occurrences (ks k)) := by
  induction moves generalizing ks with
  | nil => exact Iff.rfl
  | cons m moves ih =>
    cases m with
    | put v =>
      obtain ⟨ks', hExec⟩ : ∃ ks', execStep now (k, .rpush v) ks = .ok ks' :=
        onCollection_total (C := lists) hType
      have hStock : occurrences (ks' k) =
          Function.update (occurrences (ks k)) v (occurrences (ks k) v + 1) := by
        funext x
        rw [exec_rpush hExec]
        by_cases hx : x = v <;> simp [hx]
      rw [Served, ← hStock, ← ih (onCollection_holdsType (C := lists) hExec)]
      constructor
      · rintro ⟨ks₁, hExec₁, -, hRest⟩
        rw [command, hExec] at hExec₁
        cases hExec₁
        exact hRest
      · exact fun hRest => ⟨ks', hExec, by simp [command], hRest⟩
    | take v =>
      obtain ⟨ks', hExec⟩ : ∃ ks', execStep now (k, .lrem1 v) ks = .ok ks' :=
        onCollection_total (C := lists) hType
      have hStock : occurrences (ks' k) =
          Function.update (occurrences (ks k)) v (occurrences (ks k) v - 1) := by
        funext x
        rw [exec_lrem1 hExec]
        by_cases hx : x = v <;> simp [hx]
      rw [Served, ← hStock, ← ih (onCollection_holdsType (C := lists) hExec), ← llen_lrem1 hExec]
      constructor
      · rintro ⟨ks₁, hExec₁, hRemoves, hRest⟩
        rw [command, hExec] at hExec₁
        cases hExec₁
        exact ⟨hRemoves v rfl, hRest⟩
      · rintro ⟨hRemoves, hRest⟩
        exact ⟨ks', hExec, fun _ _ => hRemoves, hRest⟩

/-- The flush of any INSERTs and DELETEs of elements of one list sends their `RPUSH` and `LREM`
in order, and its count checks hold on the list it finds if and only if every `LREM` removes
an element. -/
theorem counts_hold_iff_removes (now : Nat) (k : Bytes) (ops : List WriteOp)
    (hOps : ∀ op ∈ ops, op.OnElement k) (ks : Keyspace) (hType : HoldsType .list (ks k)) :
    ∃ L, foldOps ops .empty = .ok L ∧
      L.elementTrace = (ops.flatMap WriteOp.moves).map (command k) ∧
      (L.CountsHold ks ↔ RemovesEach now L.elementTrace ks) := by
  obtain ⟨L, hFold, hL, hTally, hTrace⟩ := foldOps_elements .empty hOps
  rw [show Ledger.empty.elementTrace = [] from rfl, List.nil_append] at hTrace
  refine ⟨L, hFold, hTrace, ?_⟩
  rw [countsHold_iff hL hType, hTrace, hTally]
  exact (removesEach_iff _ hType).trans (served_iff _ _) |>.symm

end Run

/-- A queue of two jobs, one of which is removed, pushed again and removed again. -/
theorem counts_hold_iff_removes_queue : letI := integerScores
    let job (kind : OpKind) : WriteOp :=
      { kind := kind, relid := 1, tabletype := .list, key := [7], member := some [1] }
    let ks : Keyspace := Function.update (fun _ => none) [7] (lists.write [[1], [2]])
    ∃ L, foldOps [job .delete, job .insert, job .delete] .empty = .ok L ∧
      L.elementTrace = [([7], .lrem1 [1]), ([7], .rpush [1]), ([7], .lrem1 [1])] ∧
      L.CountsHold ks ∧ RemovesEach 0 L.elementTrace ks := by
  intro job ks
  let _ := integerScores
  have hOps : ∀ op ∈ [job .delete, job .insert, job .delete], op.OnElement [7] := by
    simp only [List.forall_mem_cons]
    exact ⟨⟨rfl, rfl, rfl, nofun⟩, ⟨rfl, rfl, rfl, nofun⟩, ⟨rfl, rfl, rfl, nofun⟩, by simp⟩
  obtain ⟨L, hFold, hTrace, hIff⟩ :=
    counts_hold_iff_removes 0 [7] _ hOps ks (lists.holdsType_write [[1], [2]])
  have hRemoves : RemovesEach 0 L.elementTrace ks := by
    rw [hTrace]
    exact ⟨_, rfl, fun _ _ => rfl, _, rfl, nofun, _, rfl, fun _ _ => rfl, trivial⟩
  exact ⟨L, hFold, hTrace, hIff.mpr hRemoves, hRemoves⟩

end ValkeyFdw
