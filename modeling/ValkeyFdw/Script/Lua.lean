import ValkeyFdw.Script.Program

/-!
# The flush program on the wire

The program as the server runs it: `KEYS` and `ARGV` are byte strings of any
shape. It decodes all plans, then checks all of them, then takes the actions, and
it answers with a text that the flush classifies. A decoding that fails, a check
that fails and a command of phase 1 that raises all end it before the first
write; from then on it answers OK or INTERNAL only.

* `classify_message`: the classifier reads the code of a message back, whatever
  the key in it holds;
* `program_two_phases`: what each classified answer says about the keyspace.
-/

namespace ValkeyFdw

open Server Trace

/-! ## The interpreter -/

/-- What ends the script with a Lua error. -/
inductive LuaError where
  | command (e : ServerError)
  /-- A command was given an argument that is nil. -/
  | arguments
  /-- A number was compared with nil. -/
  | compare

/-- What a command called with `pcall` answers instead. -/
inductive CallError where
  | command (e : ServerError)
  | arguments
  | notInteger

/-- The server's Lua: its numbers, which the text of an argument may or may not
be, and the texts it puts into replies. -/
class Lua where
  Num : Type
  tonumber : Bytes → Option Num
  /-- How often `for x = 1, n` runs its body; `none` when it does not end. -/
  iterations : Num → Option Nat
  /-- The natural number it is, as the place of a table. -/
  index : Num → Option Nat
  /-- `x < 1 or x > n`. -/
  outside : Num → Nat → Bool
  less : Nat → Num → Bool
  tostring : Num → Bytes
  errText : CallError → Bytes
  /-- What follows the error code in the reply to a script that raised. -/
  raisedText : LuaError → Bytes
  /-- The text an error reply carries for a message. It ends at a NUL and holds no newline. -/
  errorReply : Bytes → Bytes
  errorReply_prefix : ∀ {head rest : Bytes}, (∀ b ∈ head, b ≠ 0 ∧ b ≠ 10 ∧ b ≠ 13) →
    head <+: errorReply (head ++ rest)

/-! ## Messages -/

/-- The codes of the program's answers. -/
inductive ScriptCode where
  | ok
  | conflict
  | missing
  | wrongType
  | badProto
  | internal
deriving DecidableEq

def ScriptCode.text : ScriptCode → Bytes
  | .ok => ascii "OK"
  | .conflict => ascii "CONFLICT"
  | .missing => ascii "MISSING"
  | .wrongType => ascii "WRONGTYPE"
  | .badProto => ascii "BADPROTO"
  | .internal => ascii "INTERNAL"

def scriptCodes : List ScriptCode := [.ok, .conflict, .missing, .wrongType, .badProto, .internal]

def FailCode.code : FailCode → ScriptCode
  | .conflict => .conflict
  | .missing => .missing
  | .wrongType => .wrongType
  | .internal => .internal

/-- The message of `fail(code, plan, key, detail)`; no key is written as a dash. -/
def message (code : ScriptCode) (plan : Nat) (key : Option Bytes) (detail : Bytes) : Bytes :=
  ascii "VFDW1 " ++ code.text ++ ascii " " ++ decimal plan ++ ascii " " ++
    key.getD (ascii "-") ++ ascii " " ++ detail

/-- Whether a word stands at a place of a text, up to a space or the end. -/
def wordAt (str : Bytes) (pos : Nat) (word : Bytes) : Bool :=
  word.isPrefixOf (str.drop pos) &&
    (pos + word.length == str.length || str[pos + word.length]? == some 32)

/-- The verdict on an answer, `none` for one that is not the program's, and the
text after its code. -/
def classify (str : Bytes) : Option ScriptCode × Option Bytes :=
  if !wordAt str 0 (ascii "VFDW1") then (none, none)
  else if str[5]? ≠ some 32 then (none, none)
  else
    match scriptCodes.find? fun c => wordAt str 6 c.text with
    | some c =>
      let pos := 6 + c.text.length + 1
      (some c, if pos < str.length then some (str.drop pos) else none)
    | none => (some .badProto, if 6 < str.length then some (str.drop 6) else none)

/-! ## Decoding -/

/-- `ARGV` from the next argument on, and how often it was read past its end. -/
structure Args where
  rest : List Bytes
  past : Nat := 0

def Args.nextarg : Args → Option Bytes × Args
  | ⟨[], past⟩ => (none, ⟨[], past + 1⟩)
  | ⟨v :: rest, past⟩ => (some v, ⟨rest, past⟩)

def Args.take : Nat → Args → List (Option Bytes) × Args
  | 0, args => ([], args)
  | n + 1, args =>
    let (v, args) := args.nextarg
    let (vs, args) := args.take n
    (v :: vs, args)

section Program

variable [Lua]

def Args.number (args : Args) : Option Lua.Num × Args :=
  let (v, args) := args.nextarg
  (v.bind Lua.tonumber, args)

/-- A check or an action as it is decoded. -/
structure RawOp where
  op : Lua.Num
  a : List (Option Bytes)

/-- `a[i]`. -/
def RawOp.arg (o : RawOp) (i : Nat) : Option Bytes := o.a[i - 1]?.join

/-- A plan as the script decodes it. -/
structure RawPlan where
  k : Option Bytes
  ttype : Lua.Num
  req : Lua.Num
  checks : List RawOp
  actions : List RawOp

/-- How the program stops before its end. -/
inductive Stop where
  | fail (code : ScriptCode) (plan : Nat) (key : Option Bytes) (detail : Bytes)
  | raised (e : LuaError)
  | endless

/-- How often a loop over headers runs. One without end stops at the first header
that the arguments do not fill, and every header takes an argument. -/
def Args.bound (args : Args) (n : Lua.Num) : Nat :=
  (Lua.iterations n).getD (args.rest.length + 1)

/-- `KEYS[x]`. -/
def keyAt (KEYS : List Bytes) (x : Lua.Num) : Option Bytes :=
  match Lua.index x with
  | some (j + 1) => KEYS[j]?
  | _ => none

/-- `KEYS[tonumber(v)]`. -/
def keyArg (KEYS : List Bytes) (v : Option Bytes) : Option Bytes :=
  (v.bind Lua.tonumber).bind (keyAt KEYS)

def decodeOps (p : Nat) (key : Option Bytes) (what : Bytes) :
    Nat → Args → Except Stop (List RawOp × Args)
  | 0, args => .ok ([], args)
  | left + 1, args =>
    let (op, args) := args.number
    let (n, args) := args.number
    match op, n with
    | some op, some n =>
      match Lua.iterations n with
      | none => .error .endless
      | some n =>
        let (a, args) := args.take n
        (decodeOps p key what left args).map fun (ops, args) => (⟨op, a⟩ :: ops, args)
    | _, _ => .error (.fail .badProto p key what)

/-- The header of a plan, its checks and its actions. -/
def decodePlan (KEYS : List Bytes) (p : Nat) (args : Args) : Except Stop (RawPlan × Args) :=
  let (kx, args) := args.number
  let (ttype, args) := args.number
  let (require, args) := args.number
  let (nchecks, args) := args.number
  let (nactions, args) := args.number
  match kx, ttype, require, nchecks, nactions with
  | some kx, some ttype, some require, some nchecks, some nactions =>
    if Lua.outside kx KEYS.length then .error (.fail .badProto p none (ascii "keyidx"))
    else
      let k := keyAt KEYS kx
      (decodeOps p k (ascii "check") (args.bound nchecks) args).bind fun (checks, args) =>
        (decodeOps p k (ascii "action") (args.bound nactions) args).map fun (actions, args) =>
          (⟨k, ttype, require, checks, actions⟩, args)
  | _, _, _, _, _ => .error (.fail .badProto p none (ascii "plan header"))

def decodePlans (KEYS : List Bytes) : Nat → Nat → Args → Except Stop (List RawPlan × Args)
  | _, 0, args => .ok ([], args)
  | p, left + 1, args =>
    (decodePlan KEYS p args).bind fun (plan, args) =>
      (decodePlans KEYS (p + 1) left args).map fun (plans, args) => (plan :: plans, args)

/-- All plans; arguments that are left over are an error. -/
def decode (KEYS ARGV : List Bytes) : Except Stop (Lua.Num × List RawPlan) :=
  let (version, args) := Args.nextarg ⟨ARGV, 0⟩
  if version ≠ some (ascii "V1") then .error (.fail .badProto 0 none (ascii "version"))
  else
    let (nplans, args) := args.number
    match nplans with
    | none => .error (.fail .badProto 0 none (ascii "nplans"))
    | some nplans =>
      (decodePlans KEYS 1 (args.bound nplans) args).bind fun (plans, args) =>
        if args.rest ≠ [] ∨ args.past ≠ 0 then .error (.fail .badProto 0 none (ascii "trailing"))
        else .ok (nplans, plans)

/-! ## Phase 1 -/

def ValueType.name : ValueType → Bytes
  | .string => ascii "string"
  | .hash => ascii "hash"
  | .list => ascii "list"
  | .set => ascii "set"
  | .zset => ascii "zset"
  | .stream => ascii "stream"

/-- `TYPENAME`. -/
def typeName : Nat → Option ValueType
  | 0 => some .string
  | 1 => some .hash
  | 2 => some .list
  | 3 => some .set
  | 4 => some .zset
  | 5 => some .string
  | _ => none

/-- `server.call` of the command of a check; there is none when an argument is nil. -/
def callCheck (k : Bytes) (ks : Keyspace) : Option Check → Except LuaError (Option FailCode)
  | none => .error .arguments
  | some c => (c.eval k ks).mapError .command

/-- The check of how often a list holds a value, which compares only after the read. -/
def RawOp.countCheck (k : Bytes) (ks : Keyspace) (o : RawOp) :
    Except LuaError (Option FailCode) :=
  match query lists (ks k) with
  | .error e => .error (.command e)
  | .ok l =>
    -- no element is equal to nil
    let n := (o.arg 1).elim 0 l.count
    match (o.arg 2).bind Lua.tonumber with
    | none => .error .compare
    | some want => .ok (if Lua.less n want then some .missing else none)

/-- The table `CHECK`. -/
def RawOp.check (KEYS : List Bytes) (k : Bytes) (ks : Keyspace) (o : RawOp) :
    Nat → Option (Except LuaError (Option FailCode))
  | 0 => some (callCheck k ks (some .keyAbsent))
  | 1 => some (callCheck k ks (some .keyPresent))
  | 3 => some (callCheck k ks ((o.arg 1).map .hfieldAbsent))
  | 4 => some (callCheck k ks ((o.arg 1).map .hfieldPresent))
  | 5 => some (callCheck k ks ((o.arg 1).map .smemberAbsent))
  | 6 => some (callCheck k ks ((o.arg 1).map .smemberPresent))
  | 7 => some (callCheck k ks ((o.arg 1).map .zmemberAbsent))
  | 8 => some (callCheck k ks ((o.arg 1).map .zmemberPresent))
  | 9 => some (o.countCheck k ks)
  | 10 => some (callCheck k ks ((keyArg KEYS (o.arg 1)).bind fun s => (o.arg 2).map (.ksetAbsent s)))
  | 11 => some (callCheck k ks ((keyArg KEYS (o.arg 1)).bind fun s => (o.arg 2).map (.ksetPresent s)))
  | _ => none

def runRawChecks (KEYS : List Bytes) (ks : Keyspace) (p : Nat) (k : Bytes) :
    Nat → List RawOp → Option Stop
  | _, [] => none
  | c, ch :: rest =>
    if Lua.index ch.op = some 2 then runRawChecks KEYS ks p k (c + 1) rest
    else
      match (Lua.index ch.op).bind (ch.check KEYS k ks) with
      | none => some (.fail .badProto p k (ascii "checkop " ++ Lua.tostring ch.op))
      | some (.error e) => some (.raised e)
      | some (.ok (some bad)) => some (.fail bad.code p k (ascii "check " ++ decimal c))
      | some (.ok none) => runRawChecks KEYS ks p k (c + 1) rest

def RawPlan.checkAll (KEYS : List Bytes) (ks : Keyspace) (p : Nat) (pl : RawPlan) : Option Stop :=
  match pl.k with
  | none => some (.raised .arguments)
  | some k =>
    match (ks k).map Value.type with
    | none => runRawChecks KEYS ks p k 1 pl.checks
    | some t =>
      if (Lua.index pl.ttype).bind typeName = some t then runRawChecks KEYS ks p k 1 pl.checks
      else some (.fail .wrongType p k t.name)

def rawPhase1 (KEYS : List Bytes) (ks : Keyspace) : Nat → List RawPlan → Option Stop
  | _, [] => none
  | p, pl :: rest =>
    match pl.checkAll KEYS ks p with
    | some stop => some stop
    | none => rawPhase1 KEYS ks (p + 1) rest

/-! ## Phase 2 -/

/-- An integer argument of a command, in the one way the server writes it. -/
def readNat (text : Bytes) : Option Nat :=
  let n := text.foldl (fun n b => 10 * n + (b.toNat - 48)) 0
  if decimal n = text then some n else none

variable [Doubles]

/-- `server.pcall` of the command of an action; there is none when an argument is nil. -/
def callAction (now : Nat) (k : Option Bytes) (ks : Keyspace) :
    Option Action → Except CallError Keyspace
  | none => .error .arguments
  | some act =>
    match k with
    | none => .error .arguments
    | some k => (act.exec now k ks).mapError .command

def RawOp.expire (now : Nat) (k : Option Bytes) (ks : Keyspace) (o : RawOp) :
    Except CallError Keyspace :=
  match o.arg 2 with
  | none => .error .arguments
  | some text =>
    match readNat text with
    | none => .error .notInteger
    | some ms => callAction now k ks ((o.arg 1).map fun f => .hpexpire f ms)

/-- The table `ACTION`. -/
def RawOp.action (now : Nat) (KEYS : List Bytes) (k : Option Bytes) (ks : Keyspace) (o : RawOp) :
    Nat → Option (Except CallError Keyspace)
  | 0 => some (callAction now k ks ((o.arg 1).map .set))
  | 1 => some (callAction now k ks (some .del))
  | 2 => some (callAction now k ks ((o.arg 1).bind fun f => (o.arg 2).map (.hset f)))
  | 3 => some (callAction now k ks ((o.arg 1).map .hdel))
  | 4 => some (callAction now k ks ((o.arg 1).map .sadd))
  | 5 => some (callAction now k ks ((o.arg 1).map .srem))
  | 6 => some (callAction now k ks ((o.arg 1).bind fun s => (o.arg 2).map (.zadd s)))
  | 7 => some (callAction now k ks ((o.arg 1).map .zrem))
  | 8 => some (callAction now k ks ((o.arg 1).map .rpush))
  | 9 => some (callAction now k ks ((o.arg 1).map .lrem1))
  | 10 => some (callAction now k ks ((keyArg KEYS (o.arg 1)).map .rename))
  | 11 => some (callAction now k ks
      ((keyArg KEYS (o.arg 1)).bind fun s => (o.arg 2).map (.ksetAdd s)))
  | 12 => some (callAction now k ks
      ((keyArg KEYS (o.arg 1)).bind fun s => (o.arg 2).map (.ksetRem s)))
  | 13 => some (o.expire now k ks)
  | 14 => some (callAction now k ks ((o.arg 1).map .hpersist))
  | _ => none

def runRawActions (now : Nat) (KEYS : List Bytes) (p : Nat) (k : Option Bytes) :
    Nat → List RawOp → Keyspace → Option Stop × Keyspace
  | _, [], ks => (none, ks)
  | c, ac :: rest, ks =>
    match (Lua.index ac.op).bind (ac.action now KEYS k ks) with
    | none => (some (.fail .internal p k (ascii "actionop " ++ Lua.tostring ac.op)), ks)
    | some (.error e) =>
      (some (.fail .internal p k (decimal c ++ ascii " " ++ Lua.errText e)), ks)
    | some (.ok ks) => runRawActions now KEYS p k (c + 1) rest ks

def rawPhase2 (now : Nat) (KEYS : List Bytes) :
    Nat → List RawPlan → Keyspace → Option Stop × Keyspace
  | _, [], ks => (none, ks)
  | p, pl :: rest, ks =>
    match runRawActions now KEYS p pl.k 1 pl.actions ks with
    | (some stop, ks) => (some stop, ks)
    | (none, ks) => rawPhase2 now KEYS (p + 1) rest ks

/-! ## The program -/

/-- How the program ends. -/
inductive LuaEnd where
  | ok (nplans : Lua.Num)
  | stopped (stop : Stop)

/-- Decoding, phase 1 and phase 2. -/
def runLua (now : Nat) (KEYS ARGV : List Bytes) (ks : Keyspace) : LuaEnd × Keyspace :=
  match decode KEYS ARGV with
  | .error stop => (.stopped stop, ks)
  | .ok (nplans, plans) =>
    match rawPhase1 KEYS ks 1 plans with
    | some stop => (.stopped stop, ks)
    | none =>
      match rawPhase2 now KEYS 1 plans ks with
      | (some stop, ks) => (.stopped stop, ks)
      | (none, ks) => (.ok nplans, ks)

/-- The code the server puts before the text of an error that ended a script. -/
def LuaError.code : LuaError → Bytes
  | .command .wrongType => ascii "WRONGTYPE"
  | _ => ascii "ERR"

/-- The text of the answer; a program that does not end gives none. -/
def LuaEnd.text : LuaEnd → Option Bytes
  | .ok nplans => some (ascii "VFDW1 OK " ++ Lua.tostring nplans)
  | .stopped (.fail code p key detail) => some (Lua.errorReply (message code p key detail))
  | .stopped (.raised e) => some (e.code ++ ascii " " ++ Lua.raisedText e)
  | .stopped .endless => none

end Program

/-! ## The classifier reads every code back -/

theorem classify_of_prefix {code : ScriptCode} {str : Bytes}
    (h : ascii "VFDW1 " ++ code.text ++ ascii " " <+: str) : (classify str).1 = some code := by
  obtain ⟨rest, rfl⟩ := h
  cases code <;>
    simp [classify, wordAt, scriptCodes, ScriptCode.text, ascii, List.find?, List.isPrefixOf]

theorem ScriptCode.text_plain (code : ScriptCode) :
    ∀ b ∈ ascii "VFDW1 " ++ code.text ++ ascii " ", b ≠ 0 ∧ b ≠ 10 ∧ b ≠ 13 := by
  have hAll : ((ascii "VFDW1 " ++ code.text ++ ascii " ").all fun b =>
      b ≠ 0 && b ≠ 10 && b ≠ 13) = true := by
    cases code <;> rfl
  intro b hb
  simpa [and_assoc] using List.all_eq_true.mp hAll b hb

theorem classify_raised (e : LuaError) (rest : Bytes) :
    (classify (e.code ++ ascii " " ++ rest)).1 = none := by
  have hCode : e.code = ascii "WRONGTYPE" ∨ e.code = ascii "ERR" := by
    unfold LuaError.code
    split <;> simp
  rcases hCode with hCode | hCode <;> rw [hCode] <;> simp [classify, wordAt, ascii, List.isPrefixOf]

/-! ## Refusals come before the first write -/

/-- The codes that say nothing was written. -/
def ScriptCode.isRefusal : ScriptCode → Bool
  | .ok | .internal => false
  | _ => true

/-- A stop with no write before it: a refusal, a Lua error, or no end at all. -/
def Stop.Clean : Stop → Prop
  | .fail code _ _ _ => code.isRefusal = true
  | _ => True

/-- Every stop of a decoder is clean. -/
def StopsClean {α : Type} (x : Except Stop α) : Prop := ∀ stop, x = .error stop → stop.Clean

theorem StopsClean.ok {α : Type} (a : α) : StopsClean (.ok a) := fun _ h => nomatch h

theorem StopsClean.error {α : Type} {stop : Stop} (h : stop.Clean) :
    StopsClean (.error stop : Except Stop α) := by
  intro stop' hStop
  cases hStop
  exact h

theorem StopsClean.bind {α β : Type} {x : Except Stop α} {f : α → Except Stop β}
    (hx : StopsClean x) (hf : ∀ a, StopsClean (f a)) : StopsClean (x.bind f) := by
  cases x with
  | error stop => exact .error (hx stop rfl)
  | ok a => exact hf a

theorem StopsClean.map {α β : Type} {x : Except Stop α} (f : α → β) (hx : StopsClean x) :
    StopsClean (x.map f) := by
  cases x with
  | error stop => exact .error (hx stop rfl)
  | ok a => exact .ok _

/-- A check fails as a conflict or as a missing row. -/
theorem Check.eval_ne_internal {k : Bytes} {ks : Keyspace} {ch : Check} :
    ch.eval k ks ≠ .ok (some .internal) := by
  have hMap : ∀ {T : Type} {x : Except ServerError T} {q : T → Prop} [DecidablePred q]
      {a b : Option FailCode}, a ≠ some .internal → b ≠ some .internal →
        (x.map fun t => if q t then a else b) ≠ .ok (some .internal) := by
    intro T x q _ a b ha hb h
    cases x with
    | error e => cases h
    | ok t =>
      simp only [Except.map, Except.ok.injEq] at h
      split at h
      · exact ha h
      · exact hb h
  cases ch with
  | keyAbsent | keyPresent =>
    simp only [Check.eval]
    split <;> simp
  | typeOk => simp [Check.eval]
  | _ => exact hMap (by simp) (by simp)

section Program

variable [Lua] {KEYS ARGV : List Bytes} {ks : Keyspace}

theorem classify_message (code : ScriptCode) (p : Nat) (key : Option Bytes) (detail : Bytes) :
    (classify (Lua.errorReply (message code p key detail))).1 = some code := by
  refine classify_of_prefix ?_
  have hMessage : message code p key detail = (ascii "VFDW1 " ++ code.text ++ ascii " ") ++
      (decimal p ++ ascii " " ++ key.getD (ascii "-") ++ ascii " " ++ detail) := by
    simp [message]
  rw [hMessage]
  exact Lua.errorReply_prefix code.text_plain

theorem classify_ok (nplans : Lua.Num) :
    (classify (ascii "VFDW1 OK " ++ Lua.tostring nplans)).1 = some .ok := by
  refine classify_of_prefix ⟨Lua.tostring nplans, ?_⟩
  rfl

/-! ## Loops without end -/

theorem RawOp.check_code {k : Bytes} {ch : RawOp} {bad : FailCode}
    (h : (Lua.index ch.op).bind (ch.check KEYS k ks) = some (.ok (some bad))) :
    bad.code.isRefusal = true := by
  cases bad with
  | internal =>
    obtain ⟨i, -, hi⟩ := Option.bind_eq_some_iff.mp h
    have hCall : ∀ check, some (callCheck k ks check) ≠ some (.ok (some .internal)) := by
      intro check hCheck
      cases check with
      | none => simp [callCheck] at hCheck
      | some c =>
        cases hEval : c.eval k ks with
        | error e => simp [callCheck, hEval, Except.mapError] at hCheck
        | ok r =>
          simp only [callCheck, hEval, Except.mapError, Option.some.injEq, Except.ok.injEq]
            at hCheck
          exact Check.eval_ne_internal (hCheck ▸ hEval)
    have hCount : some (ch.countCheck k ks) ≠ some (.ok (some .internal)) := by
      unfold RawOp.countCheck
      split
      · simp
      · split
        · simp
        · dsimp only
          split <;> simp
    unfold RawOp.check at hi
    split at hi
    all_goals first | exact absurd hi (hCall _) | exact absurd hi hCount | cases hi
  | _ => rfl

theorem stopsClean_decodeOps (p : Nat) (key : Option Bytes) (what : Bytes) (left : Nat)
    (args : Args) : StopsClean (decodeOps p key what left args) := by
  induction left generalizing args with
  | zero => exact .ok _
  | succ left ih =>
    simp only [decodeOps]
    split
    · split
      · exact .error trivial
      · exact (ih _).map _
    · exact .error rfl

theorem stopsClean_decodePlan (KEYS : List Bytes) (p : Nat) (args : Args) :
    StopsClean (decodePlan KEYS p args) := by
  simp only [decodePlan]
  split
  · split
    · exact .error rfl
    · exact (stopsClean_decodeOps _ _ _ _ _).bind fun _ => (stopsClean_decodeOps _ _ _ _ _).map _
  · exact .error rfl

theorem stopsClean_decodePlans (KEYS : List Bytes) (p left : Nat) (args : Args) :
    StopsClean (decodePlans KEYS p left args) := by
  induction left generalizing p args with
  | zero => exact .ok _
  | succ left ih => exact (stopsClean_decodePlan KEYS p args).bind fun _ => (ih _ _).map _

theorem stopsClean_decode (KEYS ARGV : List Bytes) : StopsClean (decode KEYS ARGV) := by
  simp only [decode]
  split
  · exact .error rfl
  · split
    · exact .error rfl
    · refine (stopsClean_decodePlans _ _ _ _).bind fun _ => ?_
      split
      · exact .error rfl
      · exact .ok _

variable {stop : Stop} {plans : List RawPlan} {ks' : Keyspace}

theorem runRawChecks_clean {p : Nat} {k : Bytes} {c : Nat} {checks : List RawOp}
    (h : runRawChecks KEYS ks p k c checks = some stop) : stop.Clean := by
  induction checks generalizing c with
  | nil => cases h
  | cons ch rest ih =>
    simp only [runRawChecks] at h
    split at h
    · exact ih h
    · split at h
      · cases h
        rfl
      · cases h
        trivial
      · rename_i bad hCheck
        cases h
        exact RawOp.check_code hCheck
      · exact ih h

theorem rawPhase1_clean {p : Nat} (h : rawPhase1 KEYS ks p plans = some stop) : stop.Clean := by
  induction plans generalizing p with
  | nil => cases h
  | cons pl rest ih =>
    simp only [rawPhase1] at h
    split at h
    · rename_i stop' hPlan
      cases h
      unfold RawPlan.checkAll at hPlan
      split at hPlan
      · cases hPlan
        trivial
      · split at hPlan
        · exact runRawChecks_clean hPlan
        · split at hPlan
          · exact runRawChecks_clean hPlan
          · cases hPlan
            rfl
    · exact ih h

/-! ## What the phases leave -/

variable [Doubles] {now p c : Nat} {k : Option Bytes}

/-- An action executed: the error says whether the server answered one, or the
program knew no such action. -/
def RawOp.exec (now : Nat) (KEYS : List Bytes) (x : Option Bytes × RawOp) (ks : Keyspace) :
    Except (Option CallError) Keyspace :=
  match (Lua.index x.2.op).bind (x.2.action now KEYS x.1 ks) with
  | none => .error none
  | some r => r.mapError some

/-- The actions of all plans, in program order. -/
def rawTrace (plans : List RawPlan) : List (Option Bytes × RawOp) :=
  plans.flatMap fun pl => pl.actions.map fun ac => (pl.k, ac)

theorem runRawActions_ok {actions : List RawOp} {ks : Keyspace} :
    runRawActions now KEYS p k c actions ks = (none, ks') ↔
      run (RawOp.exec now KEYS) (actions.map fun ac => (k, ac)) ks = .ok ks' := by
  induction actions generalizing c ks with
  | nil => simp [runRawActions]
  | cons ac rest ih =>
    simp only [runRawActions, List.map_cons, run, RawOp.exec]
    rcases (Lua.index ac.op).bind (ac.action now KEYS k ks) with _ | e | ks₁
    · simp [Except.bind]
    · simp [Except.bind, Except.mapError]
    · exact ih

theorem runRawActions_stop {actions : List RawOp} {ks : Keyspace}
    (h : runRawActions now KEYS p k c actions ks = (some stop, ks')) :
    ∃ detail, stop = .fail .internal p k detail := by
  induction actions generalizing c ks with
  | nil => simp [runRawActions] at h
  | cons ac rest ih =>
    simp only [runRawActions] at h
    split at h
    · cases h
      exact ⟨_, rfl⟩
    · cases h
      exact ⟨_, rfl⟩
    · exact ih h

theorem rawPhase2_ok {ks : Keyspace} :
    rawPhase2 now KEYS p plans ks = (none, ks') ↔
      run (RawOp.exec now KEYS) (rawTrace plans) ks = .ok ks' := by
  induction plans generalizing p ks with
  | nil => simp [rawPhase2, rawTrace]
  | cons pl rest ih =>
    have hTrace : rawTrace (pl :: rest) =
        (pl.actions.map fun ac => (pl.k, ac)) ++ rawTrace rest := by simp [rawTrace]
    rw [hTrace, run_append_ok]
    simp only [rawPhase2, ← runRawActions_ok (p := p) (c := 1)]
    rcases runRawActions now KEYS p pl.k 1 pl.actions ks with ⟨_ | stop, ks₁⟩
    · simp [ih]
    · simp

theorem rawPhase2_stop {ks : Keyspace} (h : rawPhase2 now KEYS p plans ks = (some stop, ks')) :
    ∃ plan key detail, stop = .fail .internal plan key detail := by
  induction plans generalizing p ks with
  | nil => simp [rawPhase2] at h
  | cons pl rest ih =>
    simp only [rawPhase2] at h
    split at h
    · rename_i hRun
      cases h
      obtain ⟨detail, rfl⟩ := runRawActions_stop hRun
      exact ⟨p, pl.k, detail, rfl⟩
    · exact ih h

/-- A program ends in one of three ways: before its first write, at an action
that failed, or with every action done. -/
theorem runLua_cases (now : Nat) (KEYS ARGV : List Bytes) (ks : Keyspace) :
    (∃ stop, stop.Clean ∧ runLua now KEYS ARGV ks = (.stopped stop, ks)) ∨
      (∃ plan key detail ks', runLua now KEYS ARGV ks =
        (.stopped (.fail .internal plan key detail), ks')) ∨
      ∃ nplans plans ks', decode KEYS ARGV = .ok (nplans, plans) ∧
        runLua now KEYS ARGV ks = (.ok nplans, ks') ∧
        run (RawOp.exec now KEYS) (rawTrace plans) ks = .ok ks' := by
  unfold runLua
  cases hDecode : decode KEYS ARGV with
  | error stop => exact .inl ⟨stop, stopsClean_decode _ _ stop hDecode, rfl⟩
  | ok r =>
    obtain ⟨nplans, plans⟩ := r
    dsimp only
    cases hCheck : rawPhase1 KEYS ks 1 plans with
    | some stop => exact .inl ⟨stop, rawPhase1_clean hCheck, rfl⟩
    | none =>
      dsimp only
      rcases hWrite : rawPhase2 now KEYS 1 plans ks with ⟨_ | stop, ks'⟩
      · exact .inr (.inr ⟨nplans, plans, ks', rfl, rfl, rawPhase2_ok.mp hWrite⟩)
      · obtain ⟨plan, key, detail, rfl⟩ := rawPhase2_stop hWrite
        exact .inr (.inl ⟨plan, key, detail, ks', rfl⟩)

/-- The two phases hold for arguments of any shape. An answer that is classified
as a refusal left the keyspace alone, one that is classified as OK took every
action of every plan without an error, and the classifier reads each message as
the code it was built from. -/
theorem program_two_phases (now : Nat) (KEYS ARGV : List Bytes) (ks : Keyspace) :
    (∀ text code, (runLua now KEYS ARGV ks).1.text = some text → (classify text).1 = some code →
      code ∈ [.conflict, .missing, .wrongType, .badProto] → (runLua now KEYS ARGV ks).2 = ks) ∧
    (∀ text, (runLua now KEYS ARGV ks).1.text = some text → (classify text).1 = some .ok →
      ∃ nplans plans, decode KEYS ARGV = .ok (nplans, plans) ∧
        run (RawOp.exec now KEYS) (rawTrace plans) ks = .ok (runLua now KEYS ARGV ks).2) ∧
    (∀ code plan key detail,
      (classify (Lua.errorReply (message code plan key detail))).1 = some code) ∧
    ∀ nplans, (classify (ascii "VFDW1 OK " ++ Lua.tostring nplans)).1 = some .ok := by
  rcases runLua_cases now KEYS ARGV ks with ⟨stop, hClean, hRun⟩ |
    ⟨plan, key, detail, ks', hRun⟩ | ⟨nplans, plans, ks', hDecode, hRun, hTrace⟩
  · rw [hRun]
    refine ⟨fun _ _ _ _ _ => rfl, fun text hText hClass => ?_, classify_message,
      classify_ok⟩
    cases stop with
    | fail code p key detail =>
      cases hText
      rw [classify_message] at hClass
      cases hClass
      cases hClean
    | raised e =>
      cases hText
      rw [classify_raised] at hClass
      cases hClass
    | endless => cases hText
  · rw [hRun]
    refine ⟨fun text code hText hClass hCode => ?_, fun text hText hClass => ?_, classify_message,
      classify_ok⟩
    all_goals
      cases hText
      rw [classify_message] at hClass
      cases hClass
    simp at hCode
  · rw [hRun]
    refine ⟨fun text code hText hClass hCode => ?_,
      fun text _ _ => ⟨nplans, plans, hDecode, hTrace⟩, classify_message, classify_ok⟩
    cases hText
    rw [classify_ok] at hClass
    cases hClass
    simp at hCode

end Program

/-- An interpreter whose numbers are the naturals, and which adds nothing to a message. -/
@[reducible] def plainLua : Lua where
  Num := Nat
  tonumber := readNat
  iterations := some
  index := some
  outside x n := x < 1 ∨ n < x
  less n x := n < x
  tostring := decimal
  errText _ := []
  raisedText _ := []
  errorReply := id
  errorReply_prefix _ := List.prefix_append _ _

end ValkeyFdw
