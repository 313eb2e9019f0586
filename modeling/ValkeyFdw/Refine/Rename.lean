import ValkeyFdw.Refine.Sequential

/-!
# Key renames and the order of plans

A rename is an action of the plan of its new name. The plans run in first-touch
order, so a rename can be moved before writes of its old name that were made
earlier, and a write of a name can be moved before the rename that vacates it.
The program follows the statements as long as no operation is moved across an
action that concerns one of its names (`renames_in_order`); otherwise an old
name can come back (`renamed_key_comes_back`).
-/

namespace ValkeyFdw

open Server Trace

variable {ops : List WriteOp}

theorem zsetAgrees_of_string_hash
    (hTables : ∀ op ∈ ops, op.tabletype = .string ∨ op.tabletype = .hash) {L : Ledger}
    (hL : L.From ops) {op : WriteOp} (hOp : op ∈ ops) : ZsetAgrees L op := by
  obtain ⟨op', hOp', -, hType⟩ := hL.entry_type hOp (k := op.key) List.mem_cons_self
  unfold ZsetAgrees Ledger.isZset
  rw [hType]
  rcases hTables op hOp with h | h <;> rcases hTables op' hOp' with h' | h' <;> simp [h, h']

/-- If no operation is folded across an action that concerns one of its names,
the program does what the operations do in statement order. -/
theorem renames_in_order [Doubles] {now : Nat}
    (hTables : ∀ op ∈ ops, op.tabletype = .string ∨ op.tabletype = .hash)
    (hOrder : Along note InOrder ops .empty) {L : Ledger}
    (hFold : foldOps ops .empty = .ok L) {ks ks' : Keyspace} {n : Nat}
    (hOk : runProgram now L.plans ks = (.ok n, ks')) : execOps now ops ks = .ok ks' := by
  have hZset : Along note ZsetAgrees ops .empty :=
    Ledger.From.along fun L hL op hOp => zsetAgrees_of_string_hash hTables hL hOp
  exact execOps_of_runProgram hFold (hOrder.and hZset) hOk

/-- A row is updated, renamed and updated again under its new name. -/
def renameThenUpdate : List WriteOp :=
  [{ kind := .update, relid := 1, tabletype := .string, key := [0x61], oldkey := some [0x61],
     value := some [0x31] },
   { kind := .update, relid := 1, tabletype := .string, key := [0x62], oldkey := some [0x61],
     value := some [0x31] },
   { kind := .update, relid := 1, tabletype := .string, key := [0x62], oldkey := some [0x62],
     value := some [0x32] }]

theorem renames_in_order_renameThenUpdate : letI := integerScores
    ∃ L ks', foldOps renameThenUpdate .empty = .ok L ∧
      runProgram 0 L.plans (Function.update (fun _ => none) [0x61] (some (.string [0x30]))) =
        (.ok 2, ks') ∧
      execOps 0 renameThenUpdate
        (Function.update (fun _ => none) [0x61] (some (.string [0x30]))) = .ok ks' := by
  refine ⟨_, _, rfl, rfl, ?_⟩
  exact @renames_in_order _ integerScores 0 (by decide) (by decide) _ rfl _ _ 2 rfl

/-! ## Moved operations -/

/-- A row is deleted, a second one updated, and the second renamed onto the first. -/
def renameOntoDeleted : List WriteOp :=
  [{ kind := .delete, relid := 1, tabletype := .string, key := [0x62] },
   { kind := .update, relid := 1, tabletype := .string, key := [0x61], oldkey := some [0x61],
     value := some [0x33] },
   { kind := .update, relid := 1, tabletype := .string, key := [0x62], oldkey := some [0x61],
     value := some [0x33] }]

/-- The keyspace that holds the two string rows. -/
def twoStrings : Keyspace :=
  Function.update (Function.update (fun _ => none) [0x61] (some (.string [0x31])))
    [0x62] (some (.string [0x32]))

/-- The write of the old name runs after the rename, and the old name comes back. -/
theorem renamed_key_comes_back : letI := integerScores
    ∃ L ks', foldOps renameOntoDeleted .empty = .ok L ∧
      runProgram 0 L.plans twoStrings = (.ok 2, ks') ∧
      ks' [0x61] = some (.string [0x33]) ∧
      execOps 0 renameOntoDeleted twoStrings ≠ .ok ks' := by
  refine ⟨_, _, rfl, rfl, rfl, fun h => ?_⟩
  have hOld := congrArg (fun r => r.map fun ks => ks [0x61]) h
  revert hOld
  decide

end ValkeyFdw
