import ValkeyFdw.Script.Lua

/-!
# The program on the wire runs the plans it carries

Arguments that decode to the plans of a ledger make the server run the ledger's
program: the two stop at the same check or action, with the same code, and leave
the same keyspace (`runLua_eq_runProgram`).
-/

namespace ValkeyFdw

open Server Trace

variable [Lua]

/-- A decoded check that asks what a check of the ledger asks. -/
def RawOp.ReadsCheck (KEYS : List Bytes) (o : RawOp) (ch : Check) : Prop :=
  (Lua.index o.op = some 2 ∧ ch = .typeOk) ∨
    (Lua.index o.op ≠ some 2 ∧ ∀ k ks,
      (Lua.index o.op).bind (o.check KEYS k ks) = some ((ch.eval k ks).mapError .command))

/-- A decoded action that does what an action of the ledger does. -/
def RawOp.ReadsAction [Doubles] (now : Nat) (KEYS : List Bytes) (o : RawOp) (act : Action) : Prop :=
  ∀ k ks, (Lua.index o.op).bind (o.action now KEYS (some k) ks) =
    some ((act.exec now k ks).mapError .command)

/-- The raw plan says what the plan says. -/
structure RawPlan.Reads [Doubles] (now : Nat) (KEYS : List Bytes) (raw : RawPlan) (plan : Plan) :
    Prop where
  k : raw.k = some plan.key
  ttype : (Lua.index raw.ttype).bind typeName = some plan.ttype.valueType
  checks : List.Forall₂ (RawOp.ReadsCheck KEYS) raw.checks plan.checks
  actions : List.Forall₂ (RawOp.ReadsAction now KEYS) raw.actions plan.actions

def Detail.text : Detail → Bytes
  | .type t => t.name
  | .check c => ascii "check " ++ decimal c
  | .action c err => decimal c ++ ascii " " ++ Lua.errText (.command err)

def Failure.stop : Failure → Stop
  | .fail code p key detail => .fail code.code p (some key) detail.text
  | .raised err => .raised (.command err)

variable {ks : Keyspace} {raws : List RawPlan} {plans : List Plan}

theorem runRawChecks_eq {KEYS : List Bytes} {p c : Nat} {k : Bytes} {raws : List RawOp}
    {checks : List Check} (h : List.Forall₂ (RawOp.ReadsCheck KEYS) raws checks) :
    runRawChecks KEYS ks p k c raws = (runChecks ks p k c checks).map Failure.stop := by
  induction h generalizing c with
  | nil => rfl
  | @cons o ch raws checks hRead _ ih =>
    rcases hRead with ⟨hOp, rfl⟩ | ⟨hOp, hEval⟩
    · simp only [runRawChecks, hOp, runChecks, Check.eval, if_pos]
      exact ih
    · simp only [runRawChecks, runChecks, if_neg hOp, hEval k ks]
      cases ch.eval k ks with
      | error e => rfl
      | ok r =>
        cases r with
        | some code => rfl
        | none => exact ih

variable [Doubles] {now : Nat} {KEYS : List Bytes}

theorem RawPlan.Reads.checkAll {raw : RawPlan} {plan : Plan} (h : raw.Reads now KEYS plan) {p : Nat}
    :
    raw.checkAll KEYS ks p = ((typeFailure ks p plan).or
      (runChecks ks p plan.key 1 plan.checks)).map Failure.stop := by
  simp only [RawPlan.checkAll, h.k, typeFailure]
  cases hKey : ks plan.key with
  | none => simpa using runRawChecks_eq h.checks
  | some v =>
    simp only [Option.map_some, h.ttype, Option.some.injEq]
    by_cases hType : v.type = plan.ttype.valueType
    · rw [if_pos hType, if_pos hType.symm, Option.none_or]
      exact runRawChecks_eq h.checks
    · rw [if_neg hType, if_neg (Ne.symm hType)]
      rfl

theorem rawPhase1_eq {p : Nat} (h : List.Forall₂ (RawPlan.Reads now KEYS) raws plans) :
    rawPhase1 KEYS ks p raws = (phase1 ks p plans).map Failure.stop := by
  induction h generalizing p with
  | nil => rfl
  | @cons raw plan raws plans hRead _ ih =>
    simp only [rawPhase1, phase1, hRead.checkAll]
    cases typeFailure ks p plan with
    | some f => rfl
    | none =>
      cases runChecks ks p plan.key 1 plan.checks with
      | some f => rfl
      | none => exact ih

theorem runRawActions_eq {p c : Nat} {k : Bytes} {raws : List RawOp} {actions : List Action}
    (h : List.Forall₂ (RawOp.ReadsAction now KEYS) raws actions) :
    runRawActions now KEYS p (some k) c raws ks =
      ((runActions now p k c actions ks).1.map Failure.stop,
        (runActions now p k c actions ks).2) := by
  induction h generalizing c ks with
  | nil => rfl
  | @cons o act raws actions hRead _ ih =>
    simp only [runRawActions, runActions, hRead k ks]
    cases act.exec now k ks with
    | error e => rfl
    | ok ks' => exact ih

theorem rawPhase2_eq {p : Nat} (h : List.Forall₂ (RawPlan.Reads now KEYS) raws plans) :
    rawPhase2 now KEYS p raws ks =
      ((phase2 now p plans ks).1.map Failure.stop, (phase2 now p plans ks).2) := by
  induction h generalizing p ks with
  | nil => rfl
  | @cons raw plan raws plans hRead _ ih =>
    simp only [rawPhase2, phase2, hRead.k, runRawActions_eq hRead.actions]
    rcases runActions now p plan.key 1 plan.actions ks with ⟨_ | f, ks'⟩
    · exact ih
    · rfl

/-- How the end of the program on the wire answers for the program over plans. -/
def Reply.luaEnd (nplans : Lua.Num) : Reply → LuaEnd
  | .ok _ => .ok nplans
  | .failed f => .stopped f.stop

theorem runLua_eq_runProgram {ARGV : List Bytes} {nplans : Lua.Num}
    (hDecode : decode KEYS ARGV = .ok (nplans, raws))
    (hReads : List.Forall₂ (RawPlan.Reads now KEYS) raws plans) (ks : Keyspace) :
    runLua now KEYS ARGV ks =
      ((runProgram now plans ks).1.luaEnd nplans, (runProgram now plans ks).2) := by
  simp only [runLua, runProgram, hDecode, rawPhase1_eq hReads]
  cases phase1 ks 1 plans with
  | some f => rfl
  | none =>
    simp only [Option.map_none, rawPhase2_eq hReads]
    rcases phase2 now 1 plans ks with ⟨_ | f, ks'⟩ <;> rfl

end ValkeyFdw
