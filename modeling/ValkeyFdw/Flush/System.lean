import ValkeyFdw.Flush.Server
import ValkeyFdw.Lib.History
import ValkeyFdw.Session.Savepoint

/-!
# Many sessions and one server

Sessions write, nest savepoints and commit. A COMMIT with buffered writes queues the
program, the server takes the commands when it gets to them, and the flush reads the
answers, goes round again, or raises; between any two of these acts every other
session, any other client and the network may act. A packet whose session gave up is
still under way: the server may run it long after the COMMIT failed.

The log lists what changed the store, in order.
-/

namespace ValkeyFdw

open Server Trace

/-! ## The system -/

/-- Who changed the store: a session's flush, which the session numbers, or another client. -/
inductive Writer (ι : Type) where
  | flush (i : ι) (number : Nat)
  | client
deriving DecidableEq

/-- Where the `SCRIPT LOAD` of an attempt has got to. -/
inductive LoadState where
  | unsent
  | ahead
  | answered (reply : FlushReply)
  | read
deriving DecidableEq

/-- What a flush has decided after one outcome of an attempt. -/
def Loop.after (maxRetries : Nat) (s : Loop) : FlushOutcome → Ended ⊕ Loop
  | .applied => .inl ⟨s, .ok ()⟩
  | .retryNoscript =>
    if s.forceLoad then .inl ⟨s, .error (.beforeSend, errorNoProgram)⟩
    else .inr { s with
      attempts := s.attempts + 1
      scriptLoaded := false
      forceLoad := true
      reloads := s.reloads + 1 }
  | .retryBusy =>
    if s.busyRetries ≥ maxRetries then .inl ⟨s, .error (.beforeSend, errorTooBusy)⟩
    else .inr { s with attempts := s.attempts + 1, busyRetries := s.busyRetries + 1 }

/-- A COMMIT under way. -/
structure Flushing where
  maxRetries : Nat
  loop : Loop
  /-- The length of the log when it began. -/
  begun : Nat
  /-- An attempt has been sent and not been dealt with. -/
  sent : Bool

/-- A session: its transaction, how many flushes it has ended, and the one it is in. -/
structure Committer where
  tracked : Tracked := {}
  number : Nat := 0
  flushing : Option Flushing := none

def Committer.sent (c : Committer) : Bool := c.flushing.any Flushing.sent

/-- A COMMIT that is over. -/
structure Over (ι : Type) where
  session : ι
  number : Nat
  tracked : Tracked
  /-- The length of the log when the COMMIT began, and when it ended. -/
  begun : Nat
  ended : Nat
  outcome : Except Report Unit

section System

variable [Lua]

/-- The commands of one attempt on their way. -/
structure Packet where
  KEYS : List Bytes
  ARGV : List Bytes
  load : LoadState
  answer : Option Answer

/-- An entry of the log; only a flush has an outcome. -/
abbrev FlushEntry (ι : Type) := History.Entry (Writer ι) (Option LuaEnd) Keyspace

/-- The server, the sessions and what is on the wire between them. -/
structure FlushSystem (ι : Type) where
  host : ScriptHost
  sessions : ι → Committer
  wire : ι → Nat → Option Packet
  log : List (FlushEntry ι)
  finished : List (Over ι)

def FlushSystem.start (ι : Type) (host : ScriptHost) : FlushSystem ι where
  host := host
  sessions _ := {}
  wire _ _ := none
  log := []
  finished := []

/-- An act of a session, of the server, of the network or of another client. -/
inductive FlushAct (ι : Type) where
  | sql (i : ι) (e : SqlEvent)
  /-- COMMIT. `acquire` is an error while the flush gets its connection. -/
  | commit (i : ι) (maxRetries : Nat) (scriptLoaded : Bool) (acquire : Option LowerError)
  /-- The flush queues an attempt. What did not get its last byte out is not run. -/
  | queue (i : ι) (fault : Option LowerError) (pending : Bool)
  | load (i : ι) (number : Nat) (verdict : Option Bytes)
  | eval (i : ι) (number now : Nat) (verdict : Option Bytes)
  | readLoad (i : ι) (pending : Bool)
  | readEval (i : ι) (pending : Bool)
  /-- An error below the flush while it waits for an answer. -/
  | fault (i : ι) (e : LowerError) (pending : Bool)
  /-- A packet that the server has not run is lost. -/
  | lose (i : ι) (number : Nat)
  /-- Another client, or the server's clock, changes the store. -/
  | client (ks : Keyspace)
  /-- Another client loads the program or flushes the script cache. -/
  | script (cached : Bool)

section Step

variable {ι : Type} [DecidableEq ι]

def FlushSystem.setSession (sys : FlushSystem ι) (i : ι) (c : Committer) : FlushSystem ι :=
  { sys with sessions := Function.update sys.sessions i c }

def FlushSystem.setWire (sys : FlushSystem ι) (i : ι) (n : Nat) (p : Option Packet) :
    FlushSystem ι :=
  { sys with wire := Function.update sys.wire i (Function.update (sys.wire i) n p) }

/-- The end of a transaction, committed or aborted: its buffer is reset. -/
def Tracked.done (s : Tracked) : Tracked := ⟨⟨1, s.backend.buffer.reset⟩, s.deeds.rollback⟩

/-- The COMMIT of a session ends here. -/
def FlushSystem.ending (sys : FlushSystem ι) (i : ι) (begun : Nat)
    (outcome : Except Report Unit) : Over ι :=
  let c := sys.sessions i
  ⟨i, c.number, c.tracked, begun, sys.log.length, outcome⟩

/-- The COMMIT is over, and the session begins its next transaction. -/
def FlushSystem.finish (sys : FlushSystem ι) (i : ι) (begun : Nat)
    (outcome : Except Report Unit) : FlushSystem ι :=
  let c := sys.sessions i
  { sys.setSession i ⟨c.tracked.done, c.number + 1, none⟩ with
    finished := sys.finished ++ [sys.ending i begun outcome] }

/-- The flush is over with what its loop came to. -/
def FlushSystem.conclude (sys : FlushSystem ι) (i : ι) (f : Flushing) (pending : Bool)
    (result : Except Raised Unit) : FlushSystem ι :=
  sys.finish i f.begun
    (result.mapError fun r => ⟨rethrowIndeterminate pending r, r.1.errcontext⟩)

/-- `vfdw_script_encode` raises an internal error. -/
def EncodeError.error (_ : EncodeError) : SqlError := ⟨.internalError, .lower, none, false⟩

namespace FlushSystem

/-- COMMIT begins: an empty buffer is done, and the others take a connection. -/
def beginCommit (sys : FlushSystem ι) (i : ι) (maxRetries : Nat)
    (scriptLoaded : Bool) (acquire : Option LowerError) : Option (FlushSystem ι) :=
  let c := sys.sessions i
  if c.flushing.isSome || 1 < c.tracked.backend.nest then none
  else if c.tracked.backend.buffer.nlive = 0 then some (sys.finish i sys.log.length (.ok ()))
  else
    match acquire with
    | some e =>
      some (sys.finish i sys.log.length (.error ⟨e.error, FlushPhase.beforeSend.errcontext⟩))
    | none =>
      some (sys.setSession i { c with
        flushing := some ⟨maxRetries, ⟨0, 0, false, scriptLoaded, 0⟩, sys.log.length, false⟩ })

/-- The flush hands the commands of an attempt to the socket. -/
def queue (sys : FlushSystem ι) (i : ι) (fault : Option LowerError) (pending : Bool) :
    Option (FlushSystem ι) :=
  let c := sys.sessions i
  match c.flushing with
  | none => none
  | some f =>
    if f.sent then none
    else
      match fault with
      | some e => some (sys.conclude i f pending (.error (.beforeSend, e.error)))
      | none =>
        match scriptEncode c.tracked.backend.buffer.ledger.plans with
        | .error e => some (sys.conclude i f pending (.error (.beforeSend, e.error)))
        | .ok (KEYS, ARGV) =>
          let load := if f.loop.load then .ahead else .unsent
          some ((sys.setSession i { c with flushing := some { f with sent := true } }).setWire i
            c.number (some ⟨KEYS, ARGV, load, none⟩))

/-- The server comes to a `SCRIPT LOAD`. -/
def takeLoad (sys : FlushSystem ι) (i : ι) (n : Nat) (verdict : Option Bytes) :
    Option (FlushSystem ι) :=
  match sys.wire i n with
  | none => none
  | some p =>
    if p.load = .ahead then
      let (reply, host) := sys.host.scriptLoad verdict
      some ({ sys with host := host }.setWire i n (some { p with load := .answered reply }))
    else none

/-- The server comes to an `EVALSHA`. -/
def takeEval [Doubles] (sys : FlushSystem ι) (i : ι) (n now : Nat)
    (verdict : Option Bytes) : Option (FlushSystem ι) :=
  match sys.wire i n with
  | none => none
  | some p =>
    if p.load = .ahead || p.answer.isSome then none
    else
      let (a, host) := sys.host.evalsha now p.KEYS p.ARGV verdict
      let entry := a.ran.map fun e => ⟨.flush i n, some e, sys.host.store, host.store⟩
      some ({ sys with host := host, log := sys.log ++ entry.toList }.setWire i n
        (some { p with answer := some a }))

/-- The attempt of a session that is waiting for an answer. -/
def waiting (sys : FlushSystem ι) (i : ι) : Option (Flushing × Packet) :=
  match (sys.sessions i).flushing, sys.wire i (sys.sessions i).number with
  | some f, some p => if f.sent then some (f, p) else none
  | _, _ => none

/-- The flush reads the reply to the `SCRIPT LOAD`. -/
def readLoad (sys : FlushSystem ι) (i : ι) (pending : Bool) :
    Option (FlushSystem ι) :=
  match sys.waiting i with
  | none => none
  | some (f, p) =>
    match p.load with
    | .answered (.error str) =>
      some (sys.conclude i f pending (.error (.provenClean, errorFromReply str .notLoaded)))
    | .answered _ =>
      some (sys.setWire i (sys.sessions i).number (some { p with load := .read }))
    | _ => none

/-- The flush acts on what an answer was classified as. -/
def actOn (sys : FlushSystem ι) (i : ι) (f : Flushing) (pending : Bool) :
    Except Raised FlushOutcome → FlushSystem ι
  | .error r => sys.conclude i f pending (.error r)
  | .ok outcome =>
    let c := sys.sessions i
    match f.loop.after f.maxRetries outcome with
    | .inl e => sys.conclude i f pending e.result
    | .inr loop =>
      (sys.setWire i c.number none).setSession i { c with
        flushing := some { f with loop := loop, sent := false } }

/-- The flush reads the reply to the `EVALSHA` and acts on it. -/
def readEval (sys : FlushSystem ι) (i : ι) (pending : Bool) :
    Option (FlushSystem ι) :=
  match sys.waiting i with
  | none => none
  | some (f, p) =>
    let nplans := (sys.sessions i).tracked.backend.buffer.ledger.plans.length
    match p.load, p.answer with
    | .unsent, some a | .read, some a =>
      some (sys.actOn i f pending (classifyReply nplans a.reply))
    | _, _ => none

/-- The connection fails under a flush that waits. -/
def fault (sys : FlushSystem ι) (i : ι) (e : LowerError) (pending : Bool) :
    Option (FlushSystem ι) :=
  match (sys.sessions i).flushing with
  | none => none
  | some f =>
    if f.sent then some (sys.conclude i f pending (.error (.sent, e.error))) else none

/-- What was sent does not arrive. -/
def lose (sys : FlushSystem ι) (i : ι) (n : Nat) : Option (FlushSystem ι) :=
  match sys.wire i n with
  | none => none
  | some p => if p.answer.isSome then none else some (sys.setWire i n none)

/-- An act, where it is enabled. -/
def act [Doubles] (sys : FlushSystem ι) : FlushAct ι → Option (FlushSystem ι)
  | .sql i e =>
    let c := sys.sessions i
    if c.flushing.isSome then none
    else (Tracked.step e c.tracked).toOption.map fun t => sys.setSession i { c with tracked := t }
  | .commit i maxRetries scriptLoaded acquire => sys.beginCommit i maxRetries scriptLoaded acquire
  | .queue i fault pending => sys.queue i fault pending
  | .load i n verdict => sys.takeLoad i n verdict
  | .eval i n now verdict => sys.takeEval i n now verdict
  | .readLoad i pending => sys.readLoad i pending
  | .readEval i pending => sys.readEval i pending
  | .fault i e pending => sys.fault i e pending
  | .lose i n => sys.lose i n
  | .client ks =>
    some { sys with
      host := { sys.host with store := ks }
      log := sys.log ++ [⟨.client, none, sys.host.store, ks⟩] }
  | .script cached => some { sys with host := { sys.host with cached := cached } }

/-- An act that is not enabled does nothing. -/
def step [Doubles] (sys : FlushSystem ι) (a : FlushAct ι) : FlushSystem ι :=
  (sys.act a).getD sys

def run [Doubles] (sys : FlushSystem ι) (acts : List (FlushAct ι)) : FlushSystem ι :=
  acts.foldl FlushSystem.step sys

/-- The runs of a flush's program. -/
def runs (sys : FlushSystem ι) (i : ι) (n : Nat) : List (FlushEntry ι) :=
  History.entriesOf (.flush i n) sys.log

end FlushSystem

end Step

end System

end ValkeyFdw
