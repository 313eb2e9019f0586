import ValkeyFdw.Lib.Intern
import ValkeyFdw.Script.Refine

/-!
# Encoding a ledger for the flush program

A ledger travels as one `EVALSHA`. Names that a plan touches are declared in
`KEYS`, each once, and appear in `ARGV` as places in it; everything else is written
out with its counts. The keys of the plans are declared first, so that the place
of a plan's own key is its number.

* `encode_round_trip`: the program decodes what was encoded;
* `runLua_encode`: it then runs the ledger's plans.
-/

namespace ValkeyFdw

open Server Intern

/-! ## Steps -/

/-- A check or an action as the ledger keeps it: an opcode and its arguments. -/
structure LedgerStep where
  op : Nat
  args : List Bytes

def Check.step : Check → LedgerStep
  | .keyAbsent => ⟨0, []⟩
  | .keyPresent => ⟨1, []⟩
  | .typeOk => ⟨2, []⟩
  | .hfieldAbsent field => ⟨3, [field]⟩
  | .hfieldPresent field => ⟨4, [field]⟩
  | .smemberAbsent member => ⟨5, [member]⟩
  | .smemberPresent member => ⟨6, [member]⟩
  | .zmemberAbsent member => ⟨7, [member]⟩
  | .zmemberPresent member => ⟨8, [member]⟩
  | .lvalueCountGe value count => ⟨9, [value, decimal count]⟩
  | .ksetAbsent keyset member => ⟨10, [keyset, member]⟩
  | .ksetPresent keyset member => ⟨11, [keyset, member]⟩

def Action.step : Action → LedgerStep
  | .set value => ⟨0, [value]⟩
  | .del => ⟨1, []⟩
  | .hset field value => ⟨2, [field, value]⟩
  | .hdel field => ⟨3, [field]⟩
  | .sadd member => ⟨4, [member]⟩
  | .srem member => ⟨5, [member]⟩
  | .zadd score member => ⟨6, [score, member]⟩
  | .zrem member => ⟨7, [member]⟩
  | .rpush value => ⟨8, [value]⟩
  | .lrem1 value => ⟨9, [value]⟩
  | .rename oldkey => ⟨10, [oldkey]⟩
  | .ksetAdd keyset member => ⟨11, [keyset, member]⟩
  | .ksetRem keyset member => ⟨12, [keyset, member]⟩
  | .hpexpire field ms => ⟨13, [field, decimal ms]⟩
  | .hpersist field => ⟨14, [field]⟩

/-- Which argument of a check is a key. -/
def checkKeyArg (op : Nat) : Option Nat := if op = 10 ∨ op = 11 then some 0 else none

/-- Which argument of an action is a key. -/
def actionKeyArg (op : Nat) : Option Nat := if op = 10 ∨ op = 11 ∨ op = 12 then some 0 else none

def TableType.number : TableType → Nat
  | .string => 0
  | .hash => 1
  | .list => 2
  | .set => 3
  | .zset => 4
  | .vector => 5

def Require.number : Require → Nat
  | .any => 0
  | .keyAbsent => 1
  | .keyPresent => 2

def Plan.checkSteps (plan : Plan) : List LedgerStep := plan.checks.map Check.step

def Plan.actionSteps (plan : Plan) : List LedgerStep := plan.actions.map Action.step

/-! ## The encoder -/

/-- The defects that the encoder looks for. -/
inductive EncodeError where
  | undeclaredKey (arg op : Nat)
  | planWithoutKey (plan : Nat)
deriving DecidableEq

/-- The keys among the arguments of some steps. -/
def keyArgs (ka : Nat → Option Nat) (steps : List LedgerStep) : List Bytes :=
  steps.filterMap fun s => (ka s.op).bind fun i => s.args[i]?

/-- Declare every key that the steps of a plan can touch. -/
def declareKeys (t : List Bytes) (plan : Plan) : List Bytes :=
  (keyArgs actionKeyArg plan.actionSteps).foldl intern
    ((keyArgs checkKeyArg plan.checkSteps).foldl intern t)

/-- `KEYS`: the keys of the plans in order, then those their steps add. -/
def declaredKeys (plans : List Plan) : List Bytes :=
  plans.foldl declareKeys ((plans.map Plan.key).foldl intern [])

/-- The argument `i` of a step; a key goes as its place in `KEYS`. -/
def emitArg (t : List Bytes) (op : Nat) (ka : Option Nat) (i : Nat) (arg : Bytes) :
    Except EncodeError Bytes :=
  if ka = some i then
    match index t arg with
    | some idx => .ok (decimal idx)
    | none => .error (.undeclaredKey i op)
  else .ok arg

/-- The arguments of a step from the place `i` on. -/
def emitArgs (t : List Bytes) (op : Nat) (ka : Option Nat) :
    Nat → List Bytes → Except EncodeError (List Bytes)
  | _, [] => .ok []
  | i, arg :: args => do
    let out ← emitArg t op ka i arg
    return out :: (← emitArgs t op ka (i + 1) args)

def emitSteps (t : List Bytes) (ka : Nat → Option Nat) :
    List LedgerStep → Except EncodeError (List Bytes)
  | [] => .ok []
  | s :: steps => do
    let args ← emitArgs t s.op (ka s.op) 0 s.args
    return decimal s.op :: decimal s.args.length :: args ++ (← emitSteps t ka steps)

/-- The header of a plan, its checks and its actions. -/
def emitPlan (t : List Bytes) (i : Nat) (plan : Plan) : Except EncodeError (List Bytes) :=
  if i < 1 ∨ t.length < i then .error (.planWithoutKey i)
  else do
    let checks ← emitSteps t checkKeyArg plan.checkSteps
    let actions ← emitSteps t actionKeyArg plan.actionSteps
    return [decimal i, decimal plan.ttype.number, decimal plan.require.number,
      decimal plan.checks.length, decimal plan.actions.length] ++ checks ++ actions

def emitPlans (t : List Bytes) : Nat → List Plan → Except EncodeError (List Bytes)
  | _, [] => .ok []
  | i, plan :: plans => do
    let first ← emitPlan t i plan
    return first ++ (← emitPlans t (i + 1) plans)

/-- The `KEYS` and the `ARGV` of a ledger's plans. -/
def scriptEncode (plans : List Plan) : Except EncodeError (List Bytes × List Bytes) := do
  let body ← emitPlans (declaredKeys plans) 1 plans
  return (declaredKeys plans, ascii "V1" :: decimal plans.length :: body)

/-! ## What the encoder writes -/

section Emit

variable {t : List Bytes} {op : Nat}

theorem emitArgs_ok (op : Nat) {ka : Option Nat} {i : Nat} {args : List Bytes}
    (hKeys : ∀ j arg, ka = some (i + j) → args[j]? = some arg → arg ∈ t) :
    ∃ out, emitArgs t op ka i args = .ok out ∧ out.length = args.length ∧
      ∀ (j : Nat) (arg : Bytes), args[j]? = some arg →
        (ka ≠ some (i + j) → out[j]? = some arg) ∧
        (ka = some (i + j) → ∃ idx, index t arg = some idx ∧ out[j]? = some (decimal idx)) := by
  induction args generalizing i with
  | nil => exact ⟨[], rfl, rfl, by simp⟩
  | cons a args ih =>
    obtain ⟨out, hOut, hLength, hPlaces⟩ := ih (i := i + 1) fun j arg hka hArg =>
      hKeys (j + 1) arg (by rw [hka]; congr 1; omega) hArg
    obtain ⟨first, hFirst, hData, hKey⟩ : ∃ first, emitArg t op ka i a = .ok first ∧
        (ka ≠ some i → first = a) ∧
        (ka = some i → ∃ idx, index t a = some idx ∧ first = decimal idx) := by
      unfold emitArg
      by_cases hka : ka = some i
      · obtain ⟨idx, hIdx, -⟩ := exists_index (hKeys 0 a (by simpa using hka) rfl)
        rw [if_pos hka, hIdx]
        exact ⟨_, rfl, fun h => absurd hka h, fun _ => ⟨_, rfl, rfl⟩⟩
      · rw [if_neg hka]
        exact ⟨a, rfl, fun _ => rfl, fun h => absurd h hka⟩
    refine ⟨first :: out, ?_, by simp [hLength], ?_⟩
    · exact bind_ok.mpr ⟨first, hFirst, bind_ok.mpr ⟨out, hOut, rfl⟩⟩
    · rintro (_ | j) arg hArg
      · cases hArg
        refine ⟨fun hka => congrArg some (hData hka), fun hka => ?_⟩
        obtain ⟨idx, hIdx, rfl⟩ := hKey hka
        exact ⟨idx, hIdx, rfl⟩
      · have hPlace := hPlaces j arg hArg
        rw [show i + 1 + j = i + (j + 1) by omega] at hPlace
        exact hPlace

end Emit

/-! ## The keys that are declared -/

section Declared

variable {plans : List Plan} {key : Bytes}

theorem mem_declareKeys {t : List Bytes} {plan : Plan} : key ∈ declareKeys t plan ↔
    key ∈ t ∨ key ∈ keyArgs checkKeyArg plan.checkSteps ∨
      key ∈ keyArgs actionKeyArg plan.actionSteps := by
  rw [declareKeys, mem_foldl_intern, mem_foldl_intern, or_assoc]

/-- The keys of the plans and those their steps name are declared, and no others. -/
theorem mem_declaredKeys : key ∈ declaredKeys plans ↔ ∃ plan ∈ plans, key = plan.key ∨
    key ∈ keyArgs checkKeyArg plan.checkSteps ∨ key ∈ keyArgs actionKeyArg plan.actionSteps := by
  have hSteps : ∀ (plans : List Plan) (t : List Bytes), key ∈ plans.foldl declareKeys t ↔
      key ∈ t ∨ ∃ plan ∈ plans, key ∈ keyArgs checkKeyArg plan.checkSteps ∨
        key ∈ keyArgs actionKeyArg plan.actionSteps := by
    intro plans
    induction plans with
    | nil => simp
    | cons plan plans ih =>
      intro t
      rw [List.foldl_cons, ih, mem_declareKeys]
      simp only [List.mem_cons, exists_eq_or_imp, or_assoc]
  rw [declaredKeys, hSteps, mem_foldl_intern]
  simp only [List.not_mem_nil, false_or, List.mem_map]
  constructor
  · rintro (⟨plan, hPlan, rfl⟩ | ⟨plan, hPlan, hKey⟩)
    · exact ⟨plan, hPlan, .inl rfl⟩
    · exact ⟨plan, hPlan, .inr hKey⟩
  · rintro ⟨plan, hPlan, rfl | hKey⟩
    · exact .inl ⟨plan, hPlan, rfl⟩
    · exact .inr ⟨plan, hPlan, hKey⟩

theorem nodup_declaredKeys (plans : List Plan) : (declaredKeys plans).Nodup := by
  have hSteps : ∀ (plans : List Plan) (t : List Bytes), t.Nodup → (plans.foldl declareKeys t).Nodup := by
    intro plans
    induction plans with
    | nil => exact fun _ h => h
    | cons plan plans ih =>
      exact fun t h => ih _ (nodup_foldl_intern (nodup_foldl_intern h))
  exact hSteps plans _ (nodup_foldl_intern List.nodup_nil)

/-- The place of a plan's own key is the plan's number. -/
theorem prefix_declaredKeys (hNodup : (plans.map Plan.key).Nodup) :
    plans.map Plan.key <+: declaredKeys plans := by
  have hSteps : ∀ (plans : List Plan) (t : List Bytes), t <+: plans.foldl declareKeys t := by
    intro plans
    induction plans with
    | nil => exact List.prefix_refl
    | cons plan plans ih =>
      intro t
      refine List.IsPrefix.trans ?_ (ih (declareKeys t plan))
      exact (prefix_foldl_intern t _).trans (prefix_foldl_intern _ _)
  have hPlans := foldl_intern_of_nodup (t := []) (l := plans.map Plan.key) (by simpa using hNodup)
  rw [List.nil_append] at hPlans
  rw [declaredKeys, hPlans]
  exact hSteps plans _

end Declared

/-! ## Decoded steps -/

section Decoded

variable [Lua]

/-- Lua reads a decimal number that fits an `int` back as that number. -/
structure Lua.Decimals : Prop where
  reads : ∀ n, n < 2 ^ 31 → ∃ x, Lua.tonumber (decimal n) = some x ∧ Lua.index x = some n ∧
    Lua.iterations x = some n ∧ (∀ m, Lua.outside x m = decide (n < 1 ∨ m < n)) ∧
    ∀ m, Lua.less m x = decide (m < n)

omit [Lua] in
theorem readNat_decimal (n : Nat) : readNat (decimal n) = some n := by
  have hDigit : ∀ (l : List Char) (a : Nat), (∀ c ∈ l, c.isDigit) →
      l.foldl (fun a c => 10 * a + ((UInt8.ofNat c.toNat).toNat - 48)) a = Nat.ofDigitChars 10 l a := by
    intro l
    induction l with
    | nil => exact fun _ _ => rfl
    | cons c l ih =>
      intro a hl
      rw [List.forall_mem_cons] at hl
      have hByte : c.toNat < 256 := by
        have := hl.1
        simp only [Char.isDigit, Bool.and_eq_true, decide_eq_true_eq] at this
        have hLe : c.toNat ≤ 57 := UInt32.le_iff_toNat_le.mp this.2
        omega
      rw [List.foldl_cons, ih _ hl.2, UInt8.toNat_ofNat', Nat.mod_eq_of_lt hByte]
      rfl
  have hFold : (decimal n).foldl (fun n b => 10 * n + (b.toNat - 48)) 0 = n := by
    rw [decimal, List.foldl_map, hDigit _ _ fun c hc => Nat.isDigit_of_mem_toDigits (by omega) (by omega) hc]
    exact Nat.ofDigitChars_toDigits (by omega) (by omega)
  simp only [readNat, hFold, if_true]

/-- A decoded step carries a step of the ledger: the same opcode and the same
bytes, and the name of a key behind its place. -/
structure RawOp.Carries (KEYS : List Bytes) (ka : Nat → Option Nat) (o : RawOp) (s : LedgerStep) :
    Prop where
  op : Lua.index o.op = some s.op
  length : o.a.length = s.args.length
  data : ∀ (i : Nat) (arg : Bytes), s.args[i]? = some arg → ka s.op ≠ some i →
    o.arg (i + 1) = some arg
  keys : ∀ (i : Nat) (arg : Bytes), s.args[i]? = some arg → ka s.op = some i →
    keyArg KEYS (o.arg (i + 1)) = some arg

/-- A decoded plan carries a plan of the ledger. -/
structure RawPlan.Carries (KEYS : List Bytes) (raw : RawPlan) (plan : Plan) : Prop where
  k : raw.k = some plan.key
  ttype : Lua.index raw.ttype = some plan.ttype.number
  req : Lua.index raw.req = some plan.require.number
  checks : List.Forall₂ (RawOp.Carries KEYS checkKeyArg) raw.checks plan.checkSteps
  actions : List.Forall₂ (RawOp.Carries KEYS actionKeyArg) raw.actions plan.actionSteps

theorem Args.number_decimal {n : Nat} {x : Lua.Num} (h : Lua.tonumber (decimal n) = some x)
    (rest : List Bytes) (past : Nat) :
    (Args.mk (decimal n :: rest) past).number = (some x, ⟨rest, past⟩) := by
  simp [Args.number, Args.nextarg, h]

omit [Lua] in
theorem Args.take_append (out rest : List Bytes) (past : Nat) :
    (Args.mk (out ++ rest) past).take out.length = (out.map some, ⟨rest, past⟩) := by
  induction out with
  | nil => rfl
  | cons a out ih =>
    simp only [List.cons_append, List.length_cons, Args.take, Args.nextarg]
    rw [ih]
    rfl

theorem keyArg_decimal (hLua : Lua.Decimals) {KEYS : List Bytes} {i : Nat} {key : Bytes}
    (hInt : KEYS.length < 2 ^ 31) (h : KEYS[i]? = some key) :
    keyArg KEYS (some (decimal (i + 1))) = some key := by
  have hi := (List.getElem?_eq_some_iff.mp h).1
  obtain ⟨x, hx, hIndex, -⟩ := hLua.reads (i + 1) (by omega)
  simp only [keyArg, Option.bind_some, hx, keyAt, hIndex, h]

/-- The steps that were emitted are decoded, and the arguments after them are left. -/
theorem decodeOps_emit (hLua : Lua.Decimals) {t : List Bytes} (ht : t.length < 2 ^ 31)
    {ka : Nat → Option Nat} {steps : List LedgerStep}
    (hInt : ∀ s ∈ steps, s.op < 2 ^ 31 ∧ s.args.length < 2 ^ 31)
    (hKeys : ∀ key ∈ keyArgs ka steps, key ∈ t) :
    ∃ out, emitSteps t ka steps = .ok out ∧ ∀ rest past p key what, ∃ raws,
      decodeOps p key what steps.length ⟨out ++ rest, past⟩ = .ok (raws, ⟨rest, past⟩) ∧
        List.Forall₂ (RawOp.Carries t ka) raws steps := by
  induction steps with
  | nil => exact ⟨[], rfl, fun rest past p key what => ⟨[], rfl, .nil⟩⟩
  | cons s steps ih =>
    rw [List.forall_mem_cons] at hInt
    have hOwn : ∀ j arg, ka s.op = some (0 + j) → s.args[j]? = some arg → arg ∈ t := by
      intro j arg hka hArg
      refine hKeys arg (List.mem_filterMap.mpr ⟨s, List.mem_cons_self, ?_⟩)
      rw [hka, Nat.zero_add]
      exact hArg
    have hRest : ∀ key ∈ keyArgs ka steps, key ∈ t := by
      intro key hKey
      obtain ⟨s', hs', hArg⟩ := List.mem_filterMap.mp hKey
      exact hKeys key (List.mem_filterMap.mpr ⟨s', List.mem_cons_of_mem s hs', hArg⟩)
    obtain ⟨args, hArgs, hLength, hPlaces⟩ := emitArgs_ok s.op hOwn
    obtain ⟨out, hOut, hDecode⟩ := ih hInt.2 hRest
    obtain ⟨x, hx, hIndex, -⟩ := hLua.reads s.op hInt.1.1
    obtain ⟨n, hn, -, hIter, -⟩ := hLua.reads s.args.length hInt.1.2
    refine ⟨decimal s.op :: decimal s.args.length :: args ++ out, ?_, fun rest past p key what => ?_⟩
    · exact bind_ok.mpr ⟨args, hArgs, bind_ok.mpr ⟨out, hOut, rfl⟩⟩
    · obtain ⟨raws, hRaws, hCarries⟩ := hDecode rest past p key what
      have hTake : (Args.mk (args ++ (out ++ rest)) past).take s.args.length =
          (args.map some, ⟨out ++ rest, past⟩) := hLength ▸ Args.take_append args _ past
      refine ⟨⟨x, args.map some⟩ :: raws, ?_, .cons ?_ hCarries⟩
      · simp only [List.length_cons, List.cons_append, List.append_assoc, decodeOps,
          Args.number_decimal hx, Args.number_decimal hn, hIter, hTake, hRaws]
        rfl
      · refine ⟨hIndex, by simpa using hLength, fun i arg hArg hka => ?_, fun i arg hArg hka => ?_⟩
        · have hPlace := (hPlaces i arg hArg).1 (by simpa using hka)
          simp [RawOp.arg, hPlace]
        · obtain ⟨idx, hIdx, hPlace⟩ := (hPlaces i arg hArg).2 (by simpa using hka)
          obtain ⟨j, hj, hGet⟩ := exists_index (hOwn i arg (by simpa using hka) hArg)
          rw [hIdx, Option.some.injEq] at hj
          subst hj
          simp only [RawOp.arg, Nat.add_sub_cancel, List.getElem?_map, hPlace, Option.map_some,
            Option.join_some]
          exact keyArg_decimal hLua ht hGet

/-! ## Decoded plans -/

/-- The counts of a ledger fit an `int`, as the source keeps them. -/
structure Ledger.FitsInt (L : Ledger) : Prop where
  keys : (declaredKeys L.plans).length < 2 ^ 31
  checks : ∀ plan ∈ L.plans, plan.checks.length < 2 ^ 31
  actions : ∀ plan ∈ L.plans, plan.actions.length < 2 ^ 31

omit [Lua] in
theorem Plan.steps_fitInt (plan : Plan) : ∀ s ∈ plan.checkSteps ++ plan.actionSteps,
    s.op < 2 ^ 31 ∧ s.args.length < 2 ^ 31 := by
  have hCheck : ∀ ch : Check, ch.step.op < 2 ^ 31 ∧ ch.step.args.length < 2 ^ 31 := by
    intro ch
    cases ch <;> simp [Check.step]
  have hAction : ∀ act : Action, act.step.op < 2 ^ 31 ∧ act.step.args.length < 2 ^ 31 := by
    intro act
    cases act <;> simp [Action.step]
  intro s hs
  rcases List.mem_append.mp hs with hs | hs
  · obtain ⟨ch, -, rfl⟩ := List.mem_map.mp hs
    exact hCheck ch
  · obtain ⟨act, -, rfl⟩ := List.mem_map.mp hs
    exact hAction act

theorem decodePlan_emit (hLua : Lua.Decimals) {t : List Bytes} (ht : t.length < 2 ^ 31) {i : Nat}
    {plan : Plan} (hKey : t[i]? = some plan.key) (hChecks : plan.checks.length < 2 ^ 31)
    (hActions : plan.actions.length < 2 ^ 31)
    (hKeys : ∀ key, key ∈ keyArgs checkKeyArg plan.checkSteps ∨
      key ∈ keyArgs actionKeyArg plan.actionSteps → key ∈ t) :
    ∃ out, emitPlan t (i + 1) plan = .ok out ∧ ∀ rest past p, ∃ raw,
      decodePlan t p ⟨out ++ rest, past⟩ = .ok (raw, ⟨rest, past⟩) ∧ raw.Carries t plan := by
  have hi := (List.getElem?_eq_some_iff.mp hKey).1
  have hFit := plan.steps_fitInt
  simp only [List.mem_append] at hFit
  obtain ⟨checks, hEmit, hDecode⟩ := decodeOps_emit hLua ht
    (fun s hs => hFit s (.inl hs)) fun key hk => hKeys key (.inl hk)
  obtain ⟨actions, hEmit', hDecode'⟩ := decodeOps_emit hLua ht
    (fun s hs => hFit s (.inr hs)) fun key hk => hKeys key (.inr hk)
  obtain ⟨kx, hkx, hkxIndex, -, hOutside, -⟩ := hLua.reads (i + 1) (by omega)
  obtain ⟨tt, htt, httIndex, -⟩ := hLua.reads plan.ttype.number
    (by cases plan.ttype <;> simp [TableType.number])
  obtain ⟨rq, hrq, hrqIndex, -⟩ := hLua.reads plan.require.number
    (by cases plan.require <;> simp [Require.number])
  obtain ⟨nc, hnc, -, hncIter, -⟩ := hLua.reads plan.checks.length hChecks
  obtain ⟨na, hna, -, hnaIter, -⟩ := hLua.reads plan.actions.length hActions
  refine ⟨[decimal (i + 1), decimal plan.ttype.number, decimal plan.require.number,
    decimal plan.checks.length, decimal plan.actions.length] ++ checks ++ actions, ?_,
    fun rest past p => ?_⟩
  · rw [emitPlan, if_neg (by omega)]
    exact bind_ok.mpr ⟨checks, hEmit, bind_ok.mpr ⟨actions, hEmit', rfl⟩⟩
  · obtain ⟨rawChecks, hRawChecks, hCarries⟩ :=
      hDecode (actions ++ rest) past p (some plan.key) (ascii "check")
    obtain ⟨rawActions, hRawActions, hCarries'⟩ :=
      hDecode' rest past p (some plan.key) (ascii "action")
    have hInside : Lua.outside kx t.length = false := by
      rw [hOutside]
      simp
      omega
    have hk : keyAt t kx = some plan.key := by rw [keyAt, hkxIndex]; exact hKey
    have hLengths : plan.checkSteps.length = plan.checks.length ∧
        plan.actionSteps.length = plan.actions.length := by
      simp [Plan.checkSteps, Plan.actionSteps]
    rw [hLengths.1] at hRawChecks
    rw [hLengths.2] at hRawActions
    refine ⟨⟨some plan.key, tt, rq, rawChecks, rawActions⟩, ?_,
      ⟨rfl, httIndex, hrqIndex, hCarries, hCarries'⟩⟩
    simp only [List.cons_append, List.nil_append, List.append_assoc, decodePlan,
      Args.number_decimal hkx, Args.number_decimal htt, Args.number_decimal hrq,
      Args.number_decimal hnc, Args.number_decimal hna, hInside, Bool.false_eq_true, if_false, hk,
      Args.bound, hncIter, hnaIter, Option.getD_some, hRawChecks, Except.bind, hRawActions]
    rfl

theorem decodePlans_emit (hLua : Lua.Decimals) {t : List Bytes} (ht : t.length < 2 ^ 31) {i : Nat}
    {plans : List Plan} (hPlaces : ∀ (j : Nat) (plan : Plan), plans[j]? = some plan →
      t[i + j]? = some plan.key)
    (hChecks : ∀ plan ∈ plans, plan.checks.length < 2 ^ 31)
    (hActions : ∀ plan ∈ plans, plan.actions.length < 2 ^ 31)
    (hKeys : ∀ plan ∈ plans, ∀ key, key ∈ keyArgs checkKeyArg plan.checkSteps ∨
      key ∈ keyArgs actionKeyArg plan.actionSteps → key ∈ t) :
    ∃ out, emitPlans t (i + 1) plans = .ok out ∧ ∀ rest past, ∃ raws,
      decodePlans t (i + 1) plans.length ⟨out ++ rest, past⟩ = .ok (raws, ⟨rest, past⟩) ∧
        List.Forall₂ (RawPlan.Carries t) raws plans := by
  induction plans generalizing i with
  | nil => exact ⟨[], rfl, fun rest past => ⟨[], rfl, .nil⟩⟩
  | cons plan plans ih =>
    rw [List.forall_mem_cons] at hChecks hActions hKeys
    obtain ⟨first, hFirst, hDecode⟩ :=
      decodePlan_emit hLua ht (hPlaces 0 plan rfl) hChecks.1 hActions.1 hKeys.1
    obtain ⟨out, hOut, hRest⟩ := ih (i := i + 1) (fun j plan' hj => by
      rw [show i + 1 + j = i + (j + 1) by omega]
      exact hPlaces (j + 1) plan' hj) hChecks.2 hActions.2 hKeys.2
    refine ⟨first ++ out, bind_ok.mpr ⟨first, hFirst, bind_ok.mpr ⟨out, hOut, rfl⟩⟩,
      fun rest past => ?_⟩
    obtain ⟨raw, hRaw, hCarries⟩ := hDecode (out ++ rest) past (i + 1)
    obtain ⟨raws, hRaws, hAll⟩ := hRest rest past
    refine ⟨raw :: raws, ?_, .cons hCarries hAll⟩
    rw [List.append_assoc, List.length_cons, decodePlans, hRaw]
    simp only [Except.bind, hRaws]
    rfl

/-- The arguments of a ledger, and the plans that the program makes of them. -/
theorem decode_encode (hLua : Lua.Decimals) {L : Ledger} (hInt : L.FitsInt) :
    ∃ ARGV nplans raws, scriptEncode L.plans = .ok (declaredKeys L.plans, ARGV) ∧
      decode (declaredKeys L.plans) ARGV = .ok (nplans, raws) ∧
      Lua.index nplans = some L.plans.length ∧
      List.Forall₂ (RawPlan.Carries (declaredKeys L.plans)) raws L.plans := by
  have hPrefix := prefix_declaredKeys L.nodup
  obtain ⟨out, hOut, hDecode⟩ := decodePlans_emit hLua hInt.keys (i := 0)
    (fun j plan hj => by
      obtain ⟨rest, hRest⟩ := hPrefix
      have hLt := (List.getElem?_eq_some_iff.mp hj).1
      rw [← hRest, Nat.zero_add, List.getElem?_append_left (by simpa using hLt),
        List.getElem?_map, hj]
      rfl)
    hInt.checks hInt.actions fun plan hPlan key hKey =>
      mem_declaredKeys.mpr ⟨plan, hPlan, .inr hKey⟩
  obtain ⟨raws, hRaws, hCarries⟩ := hDecode [] 0
  have hLength : L.plans.length < 2 ^ 31 := by
    have := hPrefix.length_le
    rw [List.length_map] at this
    exact Nat.lt_of_le_of_lt this hInt.keys
  obtain ⟨n, hn, hnIndex, hnIter, -⟩ := hLua.reads L.plans.length hLength
  refine ⟨_, n, raws, bind_ok.mpr ⟨out, hOut, rfl⟩, ?_, hnIndex, hCarries⟩
  rw [List.append_nil] at hRaws
  simp only [decode, Args.nextarg, ne_eq, not_true_eq_false, if_false, Args.number_decimal hn,
    Args.bound, hnIter, Option.getD_some, hRaws, Except.bind]
  simp

/-- The program decodes what was encoded: nothing fails, no argument is left over
or missing, the keys are distinct, and the plans are those of the ledger in order,
byte for byte and with every key behind its place. -/
theorem encode_round_trip (hLua : Lua.Decimals) (L : Ledger) (hInt : L.FitsInt) :
    ∃ KEYS ARGV, scriptEncode L.plans = .ok (KEYS, ARGV) ∧ KEYS.Nodup ∧
      ∃ nplans raws, decode KEYS ARGV = .ok (nplans, raws) ∧
        Lua.index nplans = some L.plans.length ∧
        List.Forall₂ (RawPlan.Carries KEYS) raws L.plans := by
  obtain ⟨ARGV, nplans, raws, hEncode, hDecode, hIndex, hCarries⟩ := decode_encode hLua hInt
  exact ⟨declaredKeys L.plans, ARGV, hEncode, nodup_declaredKeys L.plans, nplans, raws, hDecode,
    hIndex, hCarries⟩

/-! ## Running what was encoded -/

theorem RawOp.Carries.readsCheck (hLua : Lua.Decimals) {KEYS : List Bytes} {o : RawOp}
    {ch : Check} (h : o.Carries KEYS checkKeyArg ch.step)
    (hCount : ∀ value count, ch = .lvalueCountGe value count → count < 2 ^ 31) :
    o.ReadsCheck KEYS ch := by
  have hOp := h.op
  have hData := h.data
  have hKeys := h.keys
  cases ch with
  | typeOk => exact .inl ⟨hOp, rfl⟩
  | keyAbsent | keyPresent =>
    refine .inr ⟨by simp [hOp, Check.step], fun k ks => ?_⟩
    rw [hOp]
    rfl
  | hfieldAbsent arg | hfieldPresent arg | smemberAbsent arg | smemberPresent arg
  | zmemberAbsent arg | zmemberPresent arg =>
    refine .inr ⟨by simp [hOp, Check.step], fun k ks => ?_⟩
    rw [hOp]
    simp only [Check.step, Option.bind_some, RawOp.check,
      hData 0 arg rfl (Option.some_ne_none 0).symm]
    rfl
  | lvalueCountGe value count =>
    obtain ⟨x, hx, -, -, -, hLess⟩ := hLua.reads count (hCount value count rfl)
    refine .inr ⟨by simp [hOp, Check.step], fun k ks => ?_⟩
    rw [hOp]
    simp only [Check.step, Option.bind_some, RawOp.check, RawOp.countCheck,
      hData 0 value rfl (Option.some_ne_none 0).symm,
      hData 1 (decimal count) rfl (Option.some_ne_none 1).symm, hx, hLess, Check.eval]
    cases query lists (ks k) with
    | error e => rfl
    | ok l => exact congrArg (some <| Except.ok ·) (if_congr decide_eq_true_iff rfl rfl)
  | ksetAbsent keyset member | ksetPresent keyset member =>
    refine .inr ⟨by simp [hOp, Check.step], fun k ks => ?_⟩
    rw [hOp]
    simp only [Check.step, Option.bind_some, RawOp.check, hKeys 0 keyset rfl rfl,
      hData 1 member rfl fun hSame => absurd (Option.some.inj hSame) Nat.zero_ne_one]
    rfl

variable [Doubles]

theorem RawOp.Carries.readsAction {now : Nat} {KEYS : List Bytes} {o : RawOp} {act : Action}
    (h : o.Carries KEYS actionKeyArg act.step) : o.ReadsAction now KEYS act := by
  intro k ks
  rw [h.op]
  have hData := h.data
  have hKeys := h.keys
  cases act with
  | del => rfl
  | set arg | hdel arg | sadd arg | srem arg | zrem arg | rpush arg | lrem1 arg | hpersist arg =>
    simp only [Action.step, Option.bind_some, RawOp.action, hData 0 arg rfl nofun]
    rfl
  | hset first second | zadd first second =>
    simp only [Action.step, Option.bind_some, RawOp.action, hData 0 first rfl nofun,
      hData 1 second rfl nofun]
    rfl
  | rename oldkey =>
    simp only [Action.step, Option.bind_some, RawOp.action, hKeys 0 oldkey rfl rfl]
    rfl
  | ksetAdd keyset member | ksetRem keyset member =>
    simp only [Action.step, Option.bind_some, RawOp.action, hKeys 0 keyset rfl rfl,
      hData 1 member rfl nofun]
    rfl
  | hpexpire field ms =>
    simp only [Action.step, Option.bind_some, RawOp.action, RawOp.expire, hData 0 field rfl nofun,
      hData 1 (decimal ms) rfl nofun, readNat_decimal]
    rfl

theorem RawPlan.Carries.reads (hLua : Lua.Decimals) {now : Nat} {KEYS : List Bytes}
    {raw : RawPlan} {plan : Plan} (h : raw.Carries KEYS plan)
    (hCounts : ∀ value count, .lvalueCountGe value count ∈ plan.checks → count < 2 ^ 31) :
    raw.Reads now KEYS plan where
  k := h.k
  ttype := by
    rw [h.ttype]
    cases plan.ttype <;> rfl
  checks := by
    have hChecks := List.forall₂_map_right_iff.mp h.checks
    refine List.forall₂_iff_get.mpr ⟨hChecks.length_eq, fun i hi hi' => ?_⟩
    refine (hChecks.get hi hi').readsCheck hLua fun value count hCheck => hCounts value count ?_
    rw [← hCheck]
    exact List.get_mem _ _
  actions := (List.forall₂_map_right_iff.mp h.actions).imp fun _ _ => RawOp.Carries.readsAction

/-- The script that was sent does what the ledger's program does. -/
theorem runLua_encode (hLua : Lua.Decimals) {L : Ledger} (hInt : L.FitsInt)
    (hCounts : ∀ plan ∈ L.plans, ∀ value count, .lvalueCountGe value count ∈ plan.checks →
      count < 2 ^ 31) (now : Nat) (ks : Keyspace) :
    ∃ KEYS ARGV nplans, scriptEncode L.plans = .ok (KEYS, ARGV) ∧
      Lua.index nplans = some L.plans.length ∧
      runLua now KEYS ARGV ks =
        ((runProgram now L.plans ks).1.luaEnd nplans, (runProgram now L.plans ks).2) := by
  obtain ⟨ARGV, nplans, raws, hEncode, hDecode, hIndex, hCarries⟩ := decode_encode hLua hInt
  refine ⟨_, ARGV, nplans, hEncode, hIndex, runLua_eq_runProgram hDecode ?_ ks⟩
  refine List.forall₂_iff_get.mpr ⟨hCarries.length_eq, fun i hi hi' => ?_⟩
  exact (hCarries.get hi hi').reads hLua (hCounts _ (List.get_mem _ _))

end Decoded

/-- A list table's keyset entry and value under one key. -/
def Ledger.listed : Ledger where
  plans := [⟨ascii "q", .list, .any, .live, [.typeOk, .ksetAbsent (ascii "idx") (ascii "q")],
    [.rpush (ascii "job"), .ksetAdd (ascii "idx") (ascii "q")], []⟩]
  members := fun _ _ => none
  nodup := by simp

theorem plainLua_decimals : @Lua.Decimals plainLua :=
  @Lua.Decimals.mk plainLua fun n _ => ⟨n, readNat_decimal n, rfl, rfl, fun _ => rfl, fun _ => rfl⟩

theorem encode_round_trip_listed : letI := plainLua
    ∃ KEYS ARGV, scriptEncode Ledger.listed.plans = .ok (KEYS, ARGV) ∧ KEYS.Nodup ∧
      ∃ nplans raws, decode KEYS ARGV = .ok (nplans, raws) ∧
        Lua.index nplans = some 1 ∧
        List.Forall₂ (RawPlan.Carries KEYS) raws Ledger.listed.plans :=
  @encode_round_trip plainLua plainLua_decimals Ledger.listed
    ⟨by decide, by simp [Ledger.listed], by simp [Ledger.listed]⟩

end ValkeyFdw
