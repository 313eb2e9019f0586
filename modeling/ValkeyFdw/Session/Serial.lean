import ValkeyFdw.Ledger.Checks
import ValkeyFdw.Lib.History
import ValkeyFdw.Refine.Sequential
import ValkeyFdw.Session.Buffer

/-!
# Sessions that commit to one server

Any number of sessions buffer operations, roll savepoints back, abort, and
commit. A commit sends one program, which the server runs as a whole. For
string tables without an index and without renames the commits are serial
(`commits_serial`): a program that answers OK found every key as its first
operation expects it, any other leaves the keyspace alone, and the keyspace is
the one of replaying the committed transactions in the order of their programs.
-/

namespace ValkeyFdw

open Server Trace

/-! ## The system -/

/-- A transaction as its flush saw it: its operations, and the server's clock. -/
structure Txn where
  now : Nat
  ops : List WriteOp

def Reply.isOk : Reply → Bool
  | .ok _ => true
  | .failed _ => false

abbrev Flush := History.Entry Txn Reply Keyspace

/-- The sessions, the server they share, and the programs it has run. -/
structure System (ι : Type) where
  store : Keyspace
  sessions : ι → Session
  history : List Flush

/-- An event of one of the sessions. -/
inductive Event (ι : Type) where
  | write (i : ι) (op : WriteOp)
  | abortSub (i : ι) (level : Nat)
  | commitSub (i : ι) (level : Nat)
  | abort (i : ι)
  | commit (i : ι) (now : Nat)

def System.start (ι : Type) (ks : Keyspace) : System ι where
  store := ks
  sessions := fun _ => .empty
  history := []

section Step

variable {ι : Type} [DecidableEq ι] [Doubles]

/-- The flush of a session that ends its transaction: an empty buffer sends no program. -/
def System.flush (sys : System ι) (i : ι) (now : Nat) : System ι :=
  let s := sys.sessions i
  let sessions := Function.update sys.sessions i .empty
  if s.buffer = [] then { sys with sessions := sessions }
  else
    let (reply, store) := runProgram now s.ledger.plans sys.store
    { store := store
      sessions := sessions
      history := sys.history ++ [⟨⟨now, s.buffer⟩, reply, sys.store, store⟩] }

/-- One event of a session. -/
def System.step (sys : System ι) : Event ι → System ι
  | .write i op =>
    { sys with sessions := Function.update sys.sessions i ((sys.sessions i).write op) }
  | .abortSub i level =>
    { sys with sessions := Function.update sys.sessions i ((sys.sessions i).abortSub level) }
  | .commitSub i level =>
    { sys with sessions := Function.update sys.sessions i ((sys.sessions i).commitSub level) }
  | .abort i => { sys with sessions := Function.update sys.sessions i .empty }
  | .commit i now => sys.flush i now

def System.run (sys : System ι) (events : List (Event ι)) : System ι :=
  events.foldl System.step sys

end Step

/-! ## String tables -/

/-- An operation on a string table without an index that moves no key. -/
structure StringWrite (op : WriteOp) : Prop where
  type : op.tabletype = .string
  noIndex : op.keyset = none
  noRename : op.isRename = false

instance (op : WriteOp) : Decidable (StringWrite op) :=
  decidable_of_iff (op.tabletype = .string ∧ op.keyset = none ∧ op.isRename = false)
    ⟨fun h => ⟨h.1, h.2.1, h.2.2⟩, fun h => ⟨h.type, h.noIndex, h.noRename⟩⟩

theorem StringWrite.levelless : Session.Levelless StringWrite := by
  intro op n h
  exact ⟨h.type, h.noIndex, h.noRename⟩

section Program

variable {ops : List WriteOp} {L : Ledger}

theorem plain_of_stringWrites (hOps : ∀ op ∈ ops, StringWrite op) : PlainTransaction ops where
  noRename op hOp := (hOps op hOp).noRename
  oneType op hOp op' hOp' _ := by rw [(hOps op hOp).type, (hOps op' hOp').type]
  noIndexKey op hOp op' _ := by simp [(hOps op hOp).noIndex]

/-- The actions of string tables write or delete a whole key. -/
theorem StringWrite.action {op : WriteOp} (hOp : StringWrite op) {z : Bool} {a : Action}
    (h : OpAction op z a) : (∃ v, a = .set v) ∨ a = .del := by
  cases h with
  | set => exact .inl ⟨_, rfl⟩
  | del => exact .inr rfl
  | rename hRen _ => simp [hOp.noRename] at hRen
  | ksetAdd hs _ _ => simp [hOp.noIndex] at hs
  | ksetRem hs _ _ => simp [hOp.noIndex] at hs
  | hset hType | hdel hType | hpersist hType | rpush hType | lrem1 hType => simp [hOp.type] at hType
  | hpexpire hType _ _ => simp [hOp.type] at hType
  | sadd hType => simp [hOp.type] at hType
  | srem hType _ | zadd hType _ | zrem hType _ => simp [hOp.type] at hType

/-- What a transaction's first operation on each key found there. -/
def FirstTouches (ks : Keyspace) (ops : List WriteOp) : Prop :=
  ∀ pre op post, ops = pre ++ op :: post → (∀ o ∈ pre, o.key ≠ op.key) →
    (op.kind = .insert → ks op.key = none) ∧ (op.kind ≠ .insert → (ks op.key).isSome)

theorem firstTouches_of_passes (hOps : ∀ op ∈ ops, StringWrite op)
    (hFold : foldOps ops .empty = .ok L) {ks : Keyspace} (hPass : L.Passes ks) :
    FirstTouches ks ops := by
  intro pre op post hSplit hFirst
  have hFresh : ∀ o ∈ pre, op.key ∉ o.names := by
    intro o ho
    have hRename := (hOps o (by simp [hSplit, ho])).noRename
    rw [WriteOp.names_of_not_rename hRename, List.mem_singleton]
    exact (hFirst o ho).symm
  obtain ⟨hAbsent, hPresent⟩ := firstTouch_of_split hFold hPass hSplit hFresh
  have hNot : op.isRename = false := (hOps op (by simp [hSplit])).noRename
  exact ⟨fun hKind => hAbsent (.inl hKind), fun hKind => hPresent (by simp [hKind, hNot])⟩

variable [Doubles]

theorem stringWrites_total (now : Nat) (hOps : ∀ op ∈ ops, StringWrite op)
    (hFold : foldOps ops .empty = .ok L) (ks : Keyspace) :
    ∃ ks', run (execStep now) (planTrace L.plans) ks = .ok ks' := by
  refine run_total (fun x hx ks => ?_) ks
  rw [Ledger.planTrace_eq] at hx
  obtain ⟨op, hOp, _, _, _, _, ha⟩ :=
    (Ledger.From.foldOps hFold).actions (Ledger.mem_traceOf.mp hx).2
  rcases (hOps op hOp).action (opAction_of_mem ha) with ⟨v, hv⟩ | hd
  · rw [execStep, hv]
    exact ⟨_, rfl⟩
  · rw [execStep, hd]
    exact ⟨_, rfl⟩

/-- A program of string tables takes effect as a whole or not at all. -/
theorem flush_atomic (now : Nat) (ks : Keyspace) (hOps : ∀ op ∈ ops, StringWrite op)
    (hFold : foldOps ops .empty = .ok L) :
    (∀ n ks', runProgram now L.plans ks = (.ok n, ks') →
      FirstTouches ks ops ∧ execOps now ops ks = .ok ks') ∧
    ∀ f ks', runProgram now L.plans ks = (.failed f, ks') → ks' = ks := by
  have hPlain := plain_of_stringWrites hOps
  constructor
  · intro n ks' hOk
    obtain ⟨-, hPass, -⟩ := runProgram_ok.mp hOk
    refine ⟨firstTouches_of_passes hOps hFold (Ledger.passes_iff.mpr hPass), ?_⟩
    refine execOps_of_runProgram hFold (Ledger.From.along fun L hL op hOp => ?_) hOk
    exact ⟨hPlain.inOrder hL hOp, hPlain.zsetAgrees hL hOp⟩
  · intro f ks' hFailed
    cases hPhase : phase1 ks 1 L.plans with
    | some r =>
      simp only [runProgram, hPhase, Prod.mk.injEq] at hFailed
      exact hFailed.2.symm
    | none =>
      obtain ⟨ks₁, hRun⟩ := stringWrites_total now hOps hFold ks
      rw [runProgram_ok.mpr ⟨rfl, phase1_eq_none.mp hPhase, hRun⟩] at hFailed
      simp at hFailed

end Program

/-! ## Every run of the system -/

section Runs

variable {ι : Type} [DecidableEq ι] [Doubles]

/-- A program's entry in the history is as it should be: what an OK found and
did, and that anything else did nothing. -/
structure FlushOk (e : Flush) : Prop where
  found : e.outcome.isOk = true → FirstTouches e.before e.txn.ops
  atomic : e.Atomic (fun txn => execOps txn.now txn.ops) Reply.isOk

/-- What every reachable state of the system keeps. -/
structure System.Serial (ks : Keyspace) (sys : System ι) : Prop where
  writes : ∀ i, ∀ op ∈ (sys.sessions i).buffer, StringWrite op
  entries : ∀ e ∈ sys.history, FlushOk e
  chain : History.Chain ks sys.history sys.store

/-- The writes of an event are on string tables. -/
def Event.StringOnly : Event ι → Prop
  | .write _ op => StringWrite op
  | _ => True

instance : ∀ e : Event ι, Decidable e.StringOnly
  | .write _ op => inferInstanceAs (Decidable (StringWrite op))
  | .abortSub _ _ | .commitSub _ _ | .abort _ | .commit _ _ => isTrue trivial

variable {ks : Keyspace} {sys : System ι}

theorem System.Serial.update (h : sys.Serial ks) (i : ι) {s : Session}
    (hs : ∀ op ∈ s.buffer, StringWrite op) :
    System.Serial ks { sys with sessions := Function.update sys.sessions i s } where
  writes j := by
    by_cases hj : j = i
    · subst hj
      simpa using hs
    · simpa [Function.update_of_ne hj] using h.writes j
  entries := h.entries
  chain := h.chain

theorem System.Serial.flush (h : sys.Serial ks) (i : ι) (now : Nat) :
    (sys.flush i now).Serial ks := by
  have hReset : System.Serial ks { sys with sessions := Function.update sys.sessions i .empty } :=
    h.update i (by simp [Session.empty])
  unfold System.flush
  dsimp only
  split
  · exact hReset
  · obtain ⟨hOk, hFailed⟩ := flush_atomic now sys.store (h.writes i) (sys.sessions i).folded
    rcases hProgram : runProgram now (sys.sessions i).ledger.plans sys.store with ⟨reply, store⟩
    refine ⟨hReset.writes, ?_, h.chain.snoc rfl⟩
    intro e he
    rcases List.mem_append.mp he with he | he
    · exact h.entries e he
    · obtain rfl := List.mem_singleton.mp he
      cases reply with
      | ok n =>
        obtain ⟨hFound, hExec⟩ := hOk n store hProgram
        exact ⟨fun _ => hFound, ⟨fun _ => hExec, fun hNot => by simp [Reply.isOk] at hNot⟩⟩
      | failed f =>
        have hSame := hFailed f store hProgram
        exact ⟨fun hNot => by simp [Reply.isOk] at hNot,
          ⟨fun hNot => by simp [Reply.isOk] at hNot, fun _ => hSame⟩⟩

theorem System.Serial.step (h : sys.Serial ks) {e : Event ι} (he : e.StringOnly) :
    (sys.step e).Serial ks := by
  cases e with
  | write i op => exact h.update i (Session.forall_write (h.writes i) he)
  | abortSub i level => exact h.update i (Session.forall_abortSub (h.writes i) level)
  | commitSub i level =>
    exact h.update i (Session.forall_commitSub StringWrite.levelless (h.writes i) level)
  | abort i => exact h.update i (by simp [Session.empty])
  | commit i now => exact h.flush i now

theorem System.Serial.run (h : sys.Serial ks) {events : List (Event ι)}
    (hEvents : ∀ e ∈ events, e.StringOnly) :
    (sys.run events).Serial ks := by
  induction events generalizing sys with
  | nil => exact h
  | cons e events ih =>
    rw [List.forall_mem_cons] at hEvents
    exact ih (h.step hEvents.1) hEvents.2

/-- In every run of any number of sessions on string tables the commits are serial. -/
theorem commits_serial (ks : Keyspace) (events : List (Event ι))
    (hEvents : ∀ e ∈ events, e.StringOnly) :
    let sys := (System.start ι ks).run events
    History.Chain ks sys.history sys.store ∧
    (∀ e ∈ sys.history, e.outcome.isOk = true → FirstTouches e.before e.txn.ops) ∧
    (∀ e ∈ sys.history, e.outcome.isOk = false → e.after = e.before) ∧
    Trace.run (fun txn => execOps txn.now txn.ops) (History.committed Reply.isOk sys.history) ks =
      .ok sys.store := by
  have hStart : (System.start ι ks).Serial ks := ⟨by simp [System.start, Session.empty],
    by simp [System.start], rfl⟩
  have h := hStart.run hEvents
  refine ⟨h.chain, fun e he => (h.entries e he).found,
    fun e he => (h.entries e he).atomic.abort, ?_⟩
  exact h.chain.replay fun e he => (h.entries e he).atomic

end Runs

def insertString (key value : Bytes) (level : Nat) : WriteOp :=
  { kind := .insert, relid := 1, tabletype := .string, level := level, key := key,
    value := some value }

/-- Two sessions insert the same key, and one of them another key that it then
takes back with a savepoint. -/
def insertRace : List (Event Bool) :=
  [.write true (insertString [0x61] [0x31] 0), .write false (insertString [0x61] [0x32] 0),
   .write true (insertString [0x62] [0x33] 1), .abortSub true 1, .commit false 0, .commit true 1]

theorem commits_serial_insertRace : letI := integerScores
    let sys := (System.start Bool fun _ => none).run insertRace
    sys.history.map (fun e => e.outcome.isOk) = [true, false] ∧
      sys.store [0x61] = some (.string [0x32]) ∧ sys.store [0x62] = none ∧
      Trace.run (fun txn => execOps txn.now txn.ops) (History.committed Reply.isOk sys.history)
        (fun _ => none) = .ok sys.store :=
  ⟨rfl, rfl, rfl, (@commits_serial Bool _ integerScores (fun _ => none) insertRace
    (by decide)).2.2.2⟩

end ValkeyFdw
