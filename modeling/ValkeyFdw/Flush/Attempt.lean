import ValkeyFdw.Script.Lua

/-!
# One attempt of the pre-commit flush

An attempt sends `SCRIPT LOAD`, unless the connection is known to have the
program, and `EVALSHA` behind it in the same round trip, and classifies the
replies. A phase says how far it got, and every error raised on the way carries a
line that tells from the phase whether the write may have been applied.

What happens at the socket is a parameter, an `Attempt`: at which point an
operation fails, what the server answers, and how the program ended if the server
ran it. `Attempt.Honest` is what is assumed of a server.
-/

namespace ValkeyFdw

/-! ## Errors -/

/-- The SQLSTATEs of the flush. -/
inductive SqlState where
  | connectionFailure
  | protocolViolation
  | fdwError
  | fdwInvalidDataType
  | datatypeMismatch
  | invalidPassword
  | invalidAuthorizationSpecification
  | insufficientPrivilege
  | featureNotSupported
  | cannotConnectNow
  | lockNotAvailable
  | outOfMemory
  | readOnlySqlTransaction
  | configFileError
  | transactionRollback
  | queryCanceled
  | adminShutdown
  | transactionResolutionUnknown
  | uniqueViolation
  | tRSerializationFailure
  | internalError
deriving DecidableEq

/-- The codes for error replies of the server, by the prefix of their text. -/
def replyErrors : List (Bytes × SqlState) :=
  [(ascii "WRONGTYPE", .datatypeMismatch), (ascii "WRONGPASS", .invalidPassword),
    (ascii "NOAUTH", .invalidAuthorizationSpecification),
    (ascii "NOPERM", .insufficientPrivilege), (ascii "NOPROTO", .featureNotSupported),
    (ascii "LOADING", .cannotConnectNow), (ascii "MASTERDOWN", .cannotConnectNow),
    (ascii "CLUSTERDOWN", .cannotConnectNow), (ascii "BUSY", .lockNotAvailable),
    (ascii "OOM", .outOfMemory), (ascii "READONLY", .readOnlySqlTransaction),
    (ascii "MISCONF", .configFileError), (ascii "CROSSSLOT", .featureNotSupported),
    (ascii "EXECABORT", .transactionRollback)]

/-- The part of a text that a C string shows. -/
def cstring (str : Bytes) : Bytes := str.takeWhile (· ≠ 0)

def errcodeForReply (str : Bytes) : SqlState :=
  match replyErrors.find? fun x => wordAt (cstring str) 0 x.1 with
  | some x => x.2
  | none => .fdwError

/-- The primary messages of the flush. -/
inductive Message where
  | unknownOutcome
  | keyExists
  | keyRemoved
  | otherType
  | rejectedArguments
  | partlyApplied
  | writeFailed
  | writeRefused
  | notLoaded
  | noProgram
  | tooBusy
  | lower
deriving DecidableEq

def Message.text : Message → String
  | .unknownOutcome => "the outcome of the Valkey write is unknown"
  | .keyExists => "a key this transaction creates already exists in Valkey"
  | .keyRemoved => "a key this transaction updates was removed concurrently"
  | .otherType => "a key holds a different Valkey type than its table declares"
  | .rejectedArguments => "the Valkey write program rejected its own arguments"
  | .partlyApplied => "the Valkey write was only partially applied"
  | .writeFailed => "Valkey write failed"
  | .writeRefused => "the Valkey write was refused"
  | .notLoaded => "could not load the Valkey write program"
  | .noProgram => "Valkey does not have the write program after loading it"
  | .tooBusy => "Valkey was too busy to apply the write"
  | .lower => "could not read reply from Valkey"

/-- The hints of the flush. -/
inductive Hint where
  | inspect
  | rolledBack
  | defect
  | scriptFlush
  | retryLater
deriving DecidableEq

def Hint.text : Hint → String
  | .inspect => "The transaction has been rolled back in PostgreSQL. The write applied in full, " ++
    "applied not at all, or - if a precondition was incomplete - applied in part. Inspect the affected " ++
    "keys."
  | .rolledBack => "No changes were applied in Valkey; the transaction has been rolled back."
  | .defect => "This is a valkey_fdw defect. The affected keys are named above and are in an " ++
    "intermediate state; inspect them before retrying."
  | .scriptFlush => "No changes were applied in Valkey. This usually means another client is " ++
    "issuing SCRIPT FLUSH."
  | .retryLater => "No changes were applied in Valkey. Retry the transaction, or raise " ++
    "write_retry_count on the foreign server."

/-- Whether the hint tells the user that nothing was written. -/
def Hint.saysNoChanges : Hint → Bool
  | .rolledBack | .scriptFlush | .retryLater => true
  | .inspect | .defect => false

/-- An error as it is reported. -/
structure SqlError where
  sqlerrcode : SqlState
  message : Message
  hint : Option Hint
  /-- At FATAL or above. -/
  fatal : Bool := false
deriving DecidableEq

/-- An error of a layer below the flush: the socket, a deadline, a cancel. -/
structure LowerError where
  sqlerrcode : SqlState
  fatal : Bool := false
deriving DecidableEq

def LowerError.error (e : LowerError) : SqlError := ⟨e.sqlerrcode, .lower, none, e.fatal⟩

/-- How far an attempt got. -/
inductive FlushPhase where
  | beforeSend
  | sent
  | provenClean
deriving DecidableEq

/-- The context line of an error. -/
inductive FlushContext where
  | noChanges
  | mayHaveBeenApplied
deriving DecidableEq

def FlushContext.text : FlushContext → String
  | .noChanges => "valkey_fdw pre-commit flush; no changes were applied in Valkey."
  | .mayHaveBeenApplied =>
    "valkey_fdw pre-commit flush; the Valkey write may or may not have been applied."

def FlushPhase.errcontext (phase : FlushPhase) : FlushContext :=
  if phase = .sent then .mayHaveBeenApplied else .noChanges

/-! ## Classification -/

/-- A reply, by what the flush looks at. -/
inductive FlushReply where
  | error (str : Bytes)
  | status (str : Bytes)
  | other
deriving DecidableEq

/-- What an attempt without an error comes to. -/
inductive FlushOutcome where
  | applied
  | retryNoscript
  | retryBusy
deriving DecidableEq

/-- An error as it is raised, with the phase it finds. -/
abbrev Raised := FlushPhase × SqlError

def errorIndeterminate : SqlError where
  sqlerrcode := .transactionResolutionUnknown
  message := .unknownOutcome
  hint := some .inspect

def errorInternal : SqlError where
  sqlerrcode := .internalError
  message := .partlyApplied
  hint := some .defect

def errorSentinel : ScriptCode → SqlError
  | .conflict => ⟨.uniqueViolation, .keyExists, some .rolledBack, false⟩
  | .missing => ⟨.tRSerializationFailure, .keyRemoved, some .rolledBack, false⟩
  | .wrongType => ⟨.datatypeMismatch, .otherType, some .rolledBack, false⟩
  | _ => ⟨.internalError, .rejectedArguments, some .rolledBack, false⟩

def errorFromReply (str : Bytes) (what : Message) : SqlError where
  sqlerrcode := errcodeForReply str
  message := what
  hint := none

/-- The prefixes that prove the server rejected the program before it ran any of it. -/
def proofs : List Bytes :=
  [ascii "NOSCRIPT", ascii "MOVED", ascii "ASK", ascii "CROSSSLOT", ascii "NOPERM", ascii "OOM",
    ascii "TRYAGAIN", ascii "LOADING", ascii "BUSYGROUP", ascii "READONLY", ascii "MASTERDOWN",
    ascii "NOREPLICAS"]

/-- The reply begins with a word for a program that was not run. -/
def provesNotApplied (str : Bytes) : Bool := proofs.any (wordAt str 0)

def isRetryable (str : Bytes) : Bool :=
  wordAt str 0 (ascii "TRYAGAIN") || wordAt str 0 (ascii "LOADING")

/-- The error for an error reply that the flush cannot act on. -/
def terminalError (str : Bytes) : Raised :=
  match (classify str).1 with
  | some .internal => (.sent, errorInternal)
  | some verdict => (.provenClean, errorSentinel verdict)
  | none =>
    if provesNotApplied str then (.provenClean, errorFromReply str .writeRefused)
    else (.sent, errorIndeterminate)

/-- What the flush makes of an error reply to `EVALSHA`. -/
def classifyError (str : Bytes) : Except Raised FlushOutcome :=
  if wordAt str 0 (ascii "NOSCRIPT") then .ok .retryNoscript
  else if isRetryable str then .ok .retryBusy
  else .error (terminalError str)

theorem retryable_proves {str : Bytes} (h : isRetryable str = true) :
    provesNotApplied str = true := by
  simp only [isRetryable, Bool.or_eq_true] at h
  simp only [provesNotApplied, proofs, List.any_cons, Bool.or_eq_true]
  rcases h with h | h <;> simp [h]

theorem noscript_proves {str : Bytes} (h : wordAt str 0 (ascii "NOSCRIPT") = true) :
    provesNotApplied str = true := by
  simp [provesNotApplied, proofs, h]

/-- Whether a status is the program's OK with the number of plans. -/
def acceptsStatus (nplans : Nat) (str : Bytes) : Bool :=
  match classify str with
  | (some .ok, some detail) => cstring detail = decimal nplans
  | _ => false

/-- What the flush makes of any reply to `EVALSHA`. -/
def classifyReply (nplans : Nat) : Option FlushReply → Except Raised FlushOutcome
  | none => .error (.sent, errorIndeterminate)
  | some (.error str) => classifyError str
  | some .other => .error (.sent, ⟨.fdwInvalidDataType, .writeFailed, none, false⟩)
  | some (.status str) =>
    if acceptsStatus nplans str then .ok .applied else .error (.sent, errorIndeterminate)

/-! ## The attempt -/

section Attempt

variable [Lua]

/-- What befalls one attempt. -/
structure Attempt where
  /-- An operation that fails while the commands are queued. A full queue is written
  out at once, so that this includes the writes of the program that did not get its
  last byte out. -/
  queue : Option LowerError
  /-- Reading the reply to the `SCRIPT LOAD`, if one is sent. -/
  load : Except LowerError (Option FlushReply)
  eval : Except LowerError (Option FlushReply)
  /-- Whether the server has the program when it comes to the `EVALSHA`. -/
  cached : Bool
  /-- How the program ended, if the server ran it. -/
  ran : Option LuaEnd

/-- Reading and classifying the reply to `EVALSHA`. -/
def Attempt.evaluate (nplans : Nat) (w : Attempt) : Except Raised FlushOutcome :=
  match w.eval with
  | .error e => .error (.sent, e.error)
  | .ok reply => classifyReply nplans reply

/-- One attempt, with a `SCRIPT LOAD` in front of it or without. -/
def Attempt.attempt (nplans : Nat) (load : Bool) (w : Attempt) : Except Raised FlushOutcome :=
  match w.queue with
  | some e => .error (.beforeSend, e.error)
  | none =>
    if load then
      match w.load with
      | .error e => .error (.sent, e.error)
      | .ok (some (.error str)) => .error (.provenClean, errorFromReply str .notLoaded)
      | .ok _ => w.evaluate nplans
    else w.evaluate nplans

/-- The program got to its write phase. -/
def LuaEnd.Wrote : LuaEnd → Prop
  | .ok _ => True
  | .stopped (.fail .internal _ _ _) => True
  | .stopped _ => False

/-- The program came to its write phase. -/
def Attempt.Wrote (w : Attempt) : Prop := ∃ e, w.ran = some e ∧ e.Wrote

/-- The reply of a program that ended. -/
def LuaEnd.reply : LuaEnd → Option FlushReply
  | .ok nplans => some (.status (ascii "VFDW1 OK " ++ Lua.tostring nplans))
  | .stopped stop => (LuaEnd.stopped stop).text.map .error

/-- What the retries assume of a server: an answer that asks for one means that the
program did not run, and a status comes from the program. -/
structure Attempt.HonestRetry (w : Attempt) : Prop where
  retry : ∀ str, w.eval = .ok (some (.error str)) →
    wordAt str 0 (ascii "NOSCRIPT") = true ∨ isRetryable str = true → w.ran = none
  status : ∀ str, w.eval = .ok (some (.status str)) → w.ran.isSome

/-- What the reports assume of a server: it runs what it has and what it got whole, a
rejection by one of the listed prefixes means that it did not run the program, and
otherwise the reply is the program's own. -/
structure Attempt.Honest (w : Attempt) : Prop where
  whole : w.queue.isSome → w.ran = none
  cached : w.ran.isSome → w.cached = true
  rejected : ∀ str, w.eval = .ok (some (.error str)) → provesNotApplied str = true → w.ran = none
  answer : ∀ e r, w.ran = some e → w.eval = .ok (some r) → e.reply = some r
  status : ∀ str, w.eval = .ok (some (.status str)) → w.ran.isSome

theorem Attempt.Honest.honestRetry {w : Attempt} (h : w.Honest) : w.HonestRetry where
  retry str hEval hRetry := h.rejected str hEval (hRetry.elim noscript_proves retryable_proves)
  status := h.status

/-- The server refuses the `SCRIPT LOAD`. -/
def Attempt.loadRefused (w : Attempt) : Prop := ∃ str, w.load = .ok (some (.error str))

/-! ## What an attempt says about the server -/

/-- The error tells the user that nothing was written. -/
def SqlError.SaysNoChanges (e : SqlError) : Prop := ∃ h, e.hint = some h ∧ h.saysNoChanges = true

variable {nplans : Nat} {load : Bool} {w : Attempt}

/-- A program whose answer is classified as a refusal has not written. -/
theorem LuaEnd.not_wrote {e : LuaEnd} {str : Bytes} (hReply : e.reply = some (.error str))
    {code : ScriptCode} (hClass : (classify str).1 = some code) (hCode : code ≠ .internal) :
    ¬ e.Wrote := by
  cases e with
  | ok n => cases hReply
  | stopped stop =>
    cases stop with
    | fail c p key detail =>
      cases hReply
      rw [classify_message] at hClass
      cases hClass
      cases code with
      | internal => exact absurd rfl hCode
      | _ => exact id
    | raised e => exact id
    | endless => exact id

/-- What the flush says when it raises an error on an answer to the program. -/
theorem terminalError_raised (hHonest : w.Honest) {str : Bytes}
    (hEval : w.eval = .ok (some (.error str))) :
    ((terminalError str).1 = .sent ∧ ¬ (terminalError str).2.SaysNoChanges) ∨
      ((terminalError str).1 = .provenClean ∧ ¬ w.Wrote) := by
  unfold terminalError
  split
  · exact .inl ⟨rfl, by simp [SqlError.SaysNoChanges, errorInternal, Hint.saysNoChanges]⟩
  · rename_i verdict hInternal hClass
    refine .inr ⟨rfl, ?_⟩
    rintro ⟨e, hRan, hWrote⟩
    exact LuaEnd.not_wrote (hHonest.answer e _ hRan hEval) hClass hInternal hWrote
  · split
    · rename_i hProof
      refine .inr ⟨rfl, ?_⟩
      rintro ⟨e, hRan, -⟩
      rw [hHonest.rejected str hEval hProof] at hRan
      cases hRan
    · exact .inl ⟨rfl, by simp [SqlError.SaysNoChanges, errorIndeterminate, Hint.saysNoChanges]⟩

theorem evaluate_raised (hHonest : w.Honest) {phase : FlushPhase} {e : SqlError}
    (h : w.evaluate nplans = .error (phase, e)) :
    (phase = .sent ∧ ¬ e.SaysNoChanges) ∨ (phase = .provenClean ∧ ¬ w.Wrote) := by
  have hUnknown : ¬ errorIndeterminate.SaysNoChanges := by
    simp [SqlError.SaysNoChanges, errorIndeterminate, Hint.saysNoChanges]
  unfold Attempt.evaluate at h
  split at h
  · cases h
    exact .inl ⟨rfl, by simp [SqlError.SaysNoChanges, LowerError.error]⟩
  · rename_i reply hEval
    unfold classifyReply at h
    split at h
    · cases h
      exact .inl ⟨rfl, hUnknown⟩
    · rename_i str
      unfold classifyError at h
      split_ifs at h
      have hTerminal := terminalError_raised hHonest hEval
      rw [Except.error.inj h] at hTerminal
      exact hTerminal
    · cases h
      exact .inl ⟨rfl, by simp [SqlError.SaysNoChanges]⟩
    · split at h
      · cases h
      · cases h
        exact .inl ⟨rfl, hUnknown⟩

/-- An error that says nothing was written is right, unless the server ran the
program although it refused to load it. -/
theorem attempt_raised (hHonest : w.Honest) {phase : FlushPhase} {e : SqlError}
    (h : w.attempt nplans load = .error (phase, e)) :
    (phase = .sent ∧ ¬ e.SaysNoChanges) ∨
      (phase ≠ .sent ∧ (w.Wrote → load = true ∧ w.loadRefused)) := by
  have hEvaluate : w.evaluate nplans = .error (phase, e) → (phase = .sent ∧ ¬ e.SaysNoChanges) ∨
      (phase ≠ .sent ∧ (w.Wrote → load = true ∧ w.loadRefused)) := by
    intro hEval
    rcases evaluate_raised hHonest hEval with hSent | ⟨rfl, hWrote⟩
    · exact .inl hSent
    · exact .inr ⟨by simp, fun hw => absurd hw hWrote⟩
  unfold Attempt.attempt at h
  split at h
  · rename_i hQueue
    cases h
    refine .inr ⟨by simp, ?_⟩
    rintro ⟨e, hRan, -⟩
    rw [hHonest.whole (by simp [hQueue])] at hRan
    cases hRan
  · split at h
    · rename_i hSent
      split at h
      · cases h
        exact .inl ⟨rfl, by simp [SqlError.SaysNoChanges, LowerError.error]⟩
      · rename_i str hLoad
        cases h
        exact .inr ⟨by simp, fun _ => ⟨hSent, str, hLoad⟩⟩
      · exact hEvaluate h
    · exact hEvaluate h

/-- The server has answered what the attempt sent, and the `EVALSHA` with the
program's OK and the number of plans. -/
structure Attempt.AnsweredOk (nplans : Nat) (load : Bool) (w : Attempt) : Prop where
  queue : w.queue = none
  load : load = true → ∃ reply, w.load = .ok reply
  eval : ∃ str, w.eval = .ok (some (.status str)) ∧ acceptsStatus nplans str = true

theorem evaluate_applied :
    w.evaluate nplans = .ok .applied ↔
      ∃ str, w.eval = .ok (some (.status str)) ∧ acceptsStatus nplans str = true := by
  unfold Attempt.evaluate
  cases hEval : w.eval with
  | error e => simp
  | ok reply =>
    rcases reply with _ | str | str | _
    · simp [classifyReply]
    · simp only [classifyReply, classifyError]
      split_ifs <;> simp
    · simp only [classifyReply]
      split_ifs with hAccepts <;> simp [hAccepts]
    · simp [classifyReply]

theorem attempt_applied :
    w.attempt nplans load = .ok .applied ↔
      w.AnsweredOk nplans load ∧ (load = true → ¬ w.loadRefused) := by
  have hAnswered : w.AnsweredOk nplans load ↔ w.queue = none ∧
      (load = true → ∃ reply, w.load = .ok reply) ∧ w.evaluate nplans = .ok .applied := by
    rw [evaluate_applied]
    exact ⟨fun h => ⟨h.queue, h.load, h.eval⟩, fun h => ⟨h.1, h.2.1, h.2.2⟩⟩
  rw [hAnswered]
  unfold Attempt.attempt Attempt.loadRefused
  cases hQueue : w.queue with
  | some e => simp
  | none =>
    cases load with
    | false => simp
    | true =>
      rcases hLoad : w.load with e | _ | str | str | _ <;> simp

/-- A reply that makes the flush go round again proves that the program did not run. -/
theorem attempt_retry (hHonest : w.HonestRetry) {outcome : FlushOutcome}
    (h : w.attempt nplans load = .ok outcome) (hRetry : outcome ≠ .applied) : w.ran = none := by
  have hEvaluate : w.evaluate nplans = .ok outcome → w.ran = none := by
    intro hEval
    unfold Attempt.evaluate at hEval
    split at hEval
    · cases hEval
    · rename_i reply hReply
      unfold classifyReply at hEval
      split at hEval
      · cases hEval
      · rename_i str
        unfold classifyError at hEval
        split_ifs at hEval with hNoscript hBusy
        · exact hHonest.retry str hReply (.inl hNoscript)
        · exact hHonest.retry str hReply (.inr hBusy)
      · cases hEval
      · split_ifs at hEval
        cases hEval
        exact absurd rfl hRetry
  unfold Attempt.attempt at h
  split at h
  · cases h
  · split at h
    · split at h
      · cases h
      · cases h
      · exact hEvaluate h
    · exact hEvaluate h

end Attempt

end ValkeyFdw
