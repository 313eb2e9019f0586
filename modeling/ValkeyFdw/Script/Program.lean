import ValkeyFdw.Ledger.Fold

/-!
# The flush program

The program runs once for a transaction. Phase 1 checks every plan against the
keyspace and writes nothing; phase 2 takes the actions plan by plan and stops
at the first error, leaving what it has already written in place.

* `phase1_eq_none`: phase 1 passes exactly when every plan's key has the plan's
  type and every check holds;
* `runProgram_ok`: the program answers OK exactly when phase 1 passes and the
  actions of all plans, in program order, succeed.
-/

namespace ValkeyFdw

open Server Trace Cell

/-! ## Checks -/

/-- The codes of a failure. -/
inductive FailCode where
  | conflict
  | missing
  | wrongType
  | internal
deriving DecidableEq

/-- Read a key as a collection, as a read command does. -/
def query {T : Type} (C : Collection T) (e : Option Value) : Except ServerError T :=
  match C.read e with
  | some t => .ok t
  | none => .error .wrongType

/-- The verdict of a check: no code when it holds, an error when the read command fails. -/
def Check.eval (k : Bytes) (ks : Keyspace) : Check → Except ServerError (Option FailCode)
  | .keyAbsent => .ok (if (ks k).isSome then some .conflict else none)
  | .keyPresent => .ok (if (ks k).isSome then none else some .missing)
  | .typeOk => .ok none
  | .hfieldAbsent f => (query hashes (ks k)).map fun h => if f ∈ h then some .conflict else none
  | .hfieldPresent f => (query hashes (ks k)).map fun h => if f ∈ h then none else some .missing
  | .smemberAbsent m => (query sets (ks k)).map fun s => if m ∈ s then some .conflict else none
  | .smemberPresent m => (query sets (ks k)).map fun s => if m ∈ s then none else some .missing
  | .zmemberAbsent m => (query zsets (ks k)).map fun z => if m ∈ z then some .conflict else none
  | .zmemberPresent m => (query zsets (ks k)).map fun z => if m ∈ z then none else some .missing
  | .lvalueCountGe v n =>
    (query lists (ks k)).map fun l => if l.count v < n then some .missing else none
  | .ksetAbsent s m => (query sets (ks s)).map fun l => if m ∈ l then some .conflict else none
  | .ksetPresent s m => (query sets (ks s)).map fun l => if m ∈ l then none else some .missing

/-! ## Replies -/

/-- What a failure is about. -/
inductive Detail where
  | type (t : ValueType)
  | check (c : Nat)
  | action (c : Nat) (err : ServerError)
deriving DecidableEq

/-- How the program fails: by its own error reply, or by the error of a command
of phase 1, which ends the script. -/
inductive Failure where
  | fail (code : FailCode) (plan : Nat) (key : Bytes) (detail : Detail)
  | raised (err : ServerError)
deriving DecidableEq

/-- What the server answers. -/
inductive Reply where
  | ok (nplans : Nat)
  | failed (failure : Failure)
deriving DecidableEq

/-! ## Phase 1 -/

/-- The checks of a plan, up to the first that fails. -/
def runChecks (ks : Keyspace) (p : Nat) (key : Bytes) : Nat → List Check → Option Failure
  | _, [] => none
  | c, ch :: rest =>
    match ch.eval key ks with
    | .error e => some (.raised e)
    | .ok (some code) => some (.fail code p key (.check c))
    | .ok none => runChecks ks p key (c + 1) rest

/-- The type check every plan carries implicitly. -/
def typeFailure (ks : Keyspace) (p : Nat) (plan : Plan) : Option Failure :=
  match ks plan.key with
  | none => none
  | some v =>
    if v.type = plan.ttype.valueType then none
    else some (.fail .wrongType p plan.key (.type v.type))

def phase1 (ks : Keyspace) : Nat → List Plan → Option Failure
  | _, [] => none
  | p, plan :: rest =>
    match typeFailure ks p plan with
    | some r => some r
    | none =>
      match runChecks ks p plan.key 1 plan.checks with
      | some r => some r
      | none => phase1 ks (p + 1) rest

/-- The check holds in the keyspace. -/
def Check.Holds (k : Bytes) (ks : Keyspace) (c : Check) : Prop := c.eval k ks = .ok none

/-- The plan's key has the plan's type and every check of the plan holds. -/
structure Plan.Passes (ks : Keyspace) (plan : Plan) : Prop where
  type : HoldsType plan.ttype.valueType (ks plan.key)
  checks : ∀ c ∈ plan.checks, c.Holds plan.key ks

variable {ks : Keyspace} {plans : List Plan}

theorem runChecks_eq_none {p : Nat} {key : Bytes} {c : Nat} {checks : List Check} :
    runChecks ks p key c checks = none ↔ ∀ ch ∈ checks, ch.Holds key ks := by
  induction checks generalizing c with
  | nil => simp [runChecks]
  | cons ch rest ih =>
    simp only [runChecks, List.forall_mem_cons, Check.Holds]
    cases h : ch.eval key ks with
    | error e => simp
    | ok r =>
      cases r with
      | some code => simp
      | none => simpa [Check.Holds] using ih

theorem typeFailure_eq_none {p : Nat} {plan : Plan} :
    typeFailure ks p plan = none ↔ HoldsType plan.ttype.valueType (ks plan.key) := by
  unfold typeFailure
  cases h : ks plan.key with
  | none => simp [holdsType_none]
  | some v => simp [holdsType_some]

theorem phase1_eq_none {p : Nat} :
    phase1 ks p plans = none ↔ ∀ plan ∈ plans, plan.Passes ks := by
  induction plans generalizing p with
  | nil => simp [phase1]
  | cons plan rest ih =>
    have hPasses : plan.Passes ks ↔
        typeFailure ks p plan = none ∧ runChecks ks p plan.key 1 plan.checks = none := by
      rw [typeFailure_eq_none, runChecks_eq_none]
      exact ⟨fun h => ⟨h.type, h.checks⟩, fun h => ⟨h.1, h.2⟩⟩
    rw [List.forall_mem_cons, hPasses, ← ih (p := p + 1)]
    simp only [phase1]
    split
    · simp_all
    · split <;> simp_all

/-! ## Phase 2 -/

/-- The actions of the plans in the order phase 2 takes them. -/
def planTrace (plans : List Plan) : List (Bytes × Action) :=
  plans.flatMap fun plan => plan.actions.map fun a => (plan.key, a)

@[simp] theorem planTrace_nil : planTrace [] = [] := rfl

theorem planTrace_cons (plan : Plan) (plans : List Plan) :
    planTrace (plan :: plans) = (plan.actions.map fun a => (plan.key, a)) ++ planTrace plans := by
  simp [planTrace]

variable [Doubles]

/-- The command of an action of the plan of key `k`. -/
def Action.exec (now : Nat) (k : Bytes) : Action → Command
  | .set v => Server.set k v
  | .del => Server.del k
  | .hset f v => Server.hset k f v
  | .hdel f => Server.hdel k f
  | .sadd m => Server.sadd k m
  | .srem m => Server.srem k m
  | .zadd score m => Server.zadd k score m
  | .zrem m => Server.zrem k m
  | .rpush v => Server.rpush k v
  | .lrem1 v => Server.lrem1 k v
  | .rename oldkey => Server.rename oldkey k
  | .ksetAdd s m => Server.sadd s m
  | .ksetRem s m => Server.srem s m
  | .hpexpire f ms => Server.hpexpire now k f ms
  | .hpersist f => Server.hpersist k f

/-- One step of phase 2: an action together with the key of its plan. -/
def execStep (now : Nat) (x : Bytes × Action) : Command := x.2.exec now x.1

/-- The actions of a plan, up to the first that fails. -/
def runActions (now p : Nat) (key : Bytes) :
    Nat → List Action → Keyspace → Option Failure × Keyspace
  | _, [], ks => (none, ks)
  | c, a :: rest, ks =>
    match a.exec now key ks with
    | .error e => (some (.fail .internal p key (.action c e)), ks)
    | .ok ks => runActions now p key (c + 1) rest ks

def phase2 (now : Nat) : Nat → List Plan → Keyspace → Option Failure × Keyspace
  | _, [], ks => (none, ks)
  | p, plan :: rest, ks =>
    match runActions now p plan.key 1 plan.actions ks with
    | (some r, ks) => (some r, ks)
    | (none, ks) => phase2 now (p + 1) rest ks

/-- The flush program over the plans of a ledger. -/
def runProgram (now : Nat) (plans : List Plan) (ks : Keyspace) : Reply × Keyspace :=
  match phase1 ks 1 plans with
  | some r => (.failed r, ks)
  | none =>
    match phase2 now 1 plans ks with
    | (some r, ks) => (.failed r, ks)
    | (none, ks) => (.ok plans.length, ks)

theorem runActions_ok {now p : Nat} {key : Bytes} {c : Nat} {actions : List Action} {ks' : Keyspace}
    :
    runActions now p key c actions ks = (none, ks') ↔
      run (execStep now) (actions.map fun a => (key, a)) ks = .ok ks' := by
  induction actions generalizing c ks with
  | nil => simp [runActions]
  | cons a rest ih =>
    simp only [runActions, List.map_cons, run, execStep]
    cases h : a.exec now key ks with
    | error e => simp [Except.bind]
    | ok ks₁ => exact ih

theorem phase2_ok {now p : Nat} {ks' : Keyspace} :
    phase2 now p plans ks = (none, ks') ↔ run (execStep now) (planTrace plans) ks = .ok ks' := by
  induction plans generalizing p ks with
  | nil => simp [phase2]
  | cons plan rest ih =>
    rw [planTrace_cons, run_append_ok]
    simp only [phase2, ← runActions_ok (p := p) (c := 1)]
    rcases h : runActions now p plan.key 1 plan.actions ks with ⟨_ | r, ks₁⟩
    · simp [ih]
    · simp

theorem runProgram_ok {now : Nat} {ks' : Keyspace} {n : Nat} :
    runProgram now plans ks = (.ok n, ks') ↔
      n = plans.length ∧ (∀ plan ∈ plans, plan.Passes ks) ∧
        run (execStep now) (planTrace plans) ks = .ok ks' := by
  rw [← phase1_eq_none (p := 1), ← phase2_ok (p := 1)]
  unfold runProgram
  rcases h1 : phase1 ks 1 plans with _ | r
  · rcases h2 : phase2 now 1 plans ks with ⟨_ | r, ks₁⟩
    · simp [eq_comm]
    · simp
  · simp

end ValkeyFdw
