import ValkeyFdw.Flush.Attempt

/-!
# The pre-commit flush and its retries

The flush attempts the write until it is applied, an error is raised or a budget
runs out: one forced reload for a server that forgot the program, and
`write_retry_count` rounds for a server that is busy. `WriteFlush.run_spec` is the rule
for the loop: an invariant of its turns, and what a turn that ends it gives.

`flush_reports_honestly` says which flushes claim no more than they know about a write they
could not confirm, `flush_applies_once` which return exactly when the program's OK is the
last answer. Both need the same of the server: that it does not run the program on an
attempt whose `SCRIPT LOAD` it refuses.
-/

namespace ValkeyFdw

section Flush

variable [Lua]

/-! ## The loop -/

/-- A flush of a transaction: what it sends, its budget, and what befalls it. -/
structure WriteFlush where
  nplans : Nat
  maxRetries : Nat
  scriptLoaded : Bool
  world : Nat → Attempt

/-- The variables of the loop. -/
structure Loop where
  attempts : Nat := 0
  busyRetries : Nat := 0
  forceLoad : Bool := false
  scriptLoaded : Bool
  reloads : Nat := 0

/-- Whether the next attempt sends the program. -/
def Loop.load (s : Loop) : Bool := s.forceLoad || !s.scriptLoaded

/-- A loop that is over: its last turn began in `last`. -/
structure Ended where
  last : Loop
  result : Except Raised Unit

def Ended.attempts (e : Ended) : Nat := e.last.attempts + 1

def errorNoProgram : SqlError where
  sqlerrcode := .internalError
  message := .noProgram
  hint := some .scriptFlush

def errorTooBusy : SqlError where
  sqlerrcode := .tRSerializationFailure
  message := .tooBusy
  hint := some .retryLater

def WriteFlush.start (f : WriteFlush) : Loop where
  scriptLoaded := f.scriptLoaded

/-- One turn of the loop. A retry goes back to the phase before sending. -/
def WriteFlush.turn (f : WriteFlush) (s : Loop) : Ended ⊕ Loop :=
  match (f.world s.attempts).attempt f.nplans s.load with
  | .error r => .inl ⟨s, .error r⟩
  | .ok .applied => .inl ⟨s, .ok ()⟩
  | .ok .retryNoscript =>
    if s.forceLoad then .inl ⟨s, .error (.beforeSend, errorNoProgram)⟩
    else .inr { s with
      attempts := s.attempts + 1
      scriptLoaded := false
      forceLoad := true
      reloads := s.reloads + 1 }
  | .ok .retryBusy =>
    if s.busyRetries ≥ f.maxRetries then .inl ⟨s, .error (.beforeSend, errorTooBusy)⟩
    else .inr { s with attempts := s.attempts + 1, busyRetries := s.busyRetries + 1 }

/-- The turns of a flush, as long as there is fuel. -/
def WriteFlush.loop (f : WriteFlush) : Nat → Loop → Option Ended
  | 0, _ => none
  | fuel + 1, s =>
    match f.turn s with
    | .inl e => some e
    | .inr s => f.loop fuel s

/-- The budgets bound the number of turns. -/
def WriteFlush.run (f : WriteFlush) : Option Ended := f.loop (f.maxRetries + 2) f.start

/-- How many turns the budgets leave. -/
def WriteFlush.left (f : WriteFlush) (s : Loop) : Nat :=
  f.maxRetries - s.busyRetries + (if s.forceLoad then 0 else 1) + 1

section Loop

variable {f : WriteFlush} {s t : Loop} {e : Ended}

theorem WriteFlush.turn_left (h : f.turn s = .inr t) : f.left t < f.left s := by
  unfold WriteFlush.turn at h
  split at h
  · cases h
  · cases h
  · split at h
    · cases h
    · rename_i hForce
      cases h
      simp [WriteFlush.left, hForce]
  · split at h
    · cases h
    · cases h
      simp only [WriteFlush.left]
      omega

/-- The loop ends within its budgets, and what its last turn gives holds of the end. -/
theorem WriteFlush.run_spec {I : Loop → Prop} {Q : Ended → Prop} (hStart : I f.start)
    (hEnd : ∀ s e, I s → f.turn s = .inl e → Q e)
    (hNext : ∀ s t, I s → f.turn s = .inr t → I t) : ∃ e, f.run = some e ∧ Q e := by
  have hLoop : ∀ fuel s, I s → f.left s ≤ fuel → ∃ e, f.loop fuel s = some e ∧ Q e := by
    intro fuel
    induction fuel with
    | zero =>
      intro s _ hLeft
      simp [WriteFlush.left] at hLeft
    | succ fuel ih =>
      intro s hs hLeft
      simp only [WriteFlush.loop]
      cases hTurn : f.turn s with
      | inl e => exact ⟨e, rfl, hEnd s e hs hTurn⟩
      | inr t =>
        have hLess := f.turn_left hTurn
        exact ih t (hNext s t hs hTurn) (by omega)
  exact hLoop _ _ hStart (by simp [WriteFlush.left, WriteFlush.start])

/-- The loop comes to this turn. -/
def WriteFlush.Reaches (f : WriteFlush) (s : Loop) : Prop :=
  Relation.ReflTransGen (fun s t => f.turn s = .inr t) f.start s

theorem WriteFlush.Reaches.run_eq (h : f.Reaches s) (hEnds : f.turn s = .inl e) :
    f.run = some e := by
  -- the invariant is that the turn is still to come
  obtain ⟨e', hRun, rfl⟩ := f.run_spec (Q := (· = e))
    (I := fun t => Relation.ReflTransGen (fun s t => f.turn s = .inr t) t s) h
    (fun t e' hCome hTurn => by
      rcases hCome.cases_head with rfl | ⟨u, hNext, -⟩
      · exact Sum.inl.inj (hTurn.symm.trans hEnds)
      · exact absurd (hTurn.symm.trans hNext) (by simp))
    (fun t u hCome hTurn => by
      rcases hCome.cases_head with rfl | ⟨v, hNext, hCome⟩
      · exact absurd (hTurn.symm.trans hEnds) (by simp)
      · exact Sum.inr.inj (hTurn.symm.trans hNext) ▸ hCome)
  exact hRun

/-- A turn that sends the program and is refused ends the loop with an error that says
nothing was applied. -/
theorem WriteFlush.turn_refused (hQueue : (f.world s.attempts).queue = none)
    (hSent : s.load = true) (hRefused : (f.world s.attempts).loadRefused) :
    ∃ error, f.turn s = .inl ⟨s, .error (.provenClean, error)⟩ := by
  obtain ⟨str, hLoad⟩ := hRefused
  exact ⟨errorFromReply str .notLoaded, by
    simp [WriteFlush.turn, Attempt.attempt, hQueue, hSent, hLoad]⟩

/-- A turn that goes on was answered with a proof that the program did not run. -/
theorem WriteFlush.turn_next (hHonest : (f.world s.attempts).HonestRetry) (h : f.turn s = .inr t) :
    t.attempts = s.attempts + 1 ∧ (f.world s.attempts).ran = none := by
  unfold WriteFlush.turn at h
  split at h
  · cases h
  · cases h
  · rename_i hAttempt
    split at h
    · cases h
    · cases h
      exact ⟨rfl, attempt_retry hHonest hAttempt (by simp)⟩
  · rename_i hAttempt
    split at h
    · cases h
    · cases h
      exact ⟨rfl, attempt_retry hHonest hAttempt (by simp)⟩

/-- No attempt before this turn has run the program. -/
def Loop.Unrun (f : WriteFlush) (s : Loop) : Prop := ∀ i < s.attempts, (f.world i).ran = none

theorem Loop.Unrun.next (hHonest : ∀ i, (f.world i).HonestRetry) (hs : s.Unrun f)
    (h : f.turn s = .inr t) : t.Unrun f := by
  obtain ⟨hAttempts, hRan⟩ := f.turn_next (hHonest _) h
  intro i hi
  rw [hAttempts] at hi
  rcases Nat.lt_succ_iff_lt_or_eq.mp hi with hi | rfl
  · exact hs i hi
  · exact hRan

end Loop

/-! ## The report -/

/-- An error as the user sees it. -/
structure Report where
  error : SqlError
  context : FlushContext

/-- The hint or the context of the error says that nothing was written; no message does. -/
def Report.SaysNoChanges (r : Report) : Prop := r.error.SaysNoChanges ∨ r.context = .noChanges

/-- Whether a caught error is raised again as it is. -/
def rethrows (pending : Bool) (r : Raised) : Bool :=
  r.1 ≠ .sent || r.2.fatal || r.2.sqlerrcode ∈ [.queryCanceled, .adminShutdown,
    .transactionResolutionUnknown, .uniqueViolation, .tRSerializationFailure, .datatypeMismatch,
    .internalError] || pending

/-- The error that leaves the flush: one of a layer below, raised once the program
was sent, becomes an unknown outcome. `pending` is a cancel or a termination. -/
def rethrowIndeterminate (pending : Bool) (r : Raised) : SqlError :=
  if rethrows pending r then r.2 else errorIndeterminate

/-- The flush of a transaction, with the number of attempts it made. `acquire` is an
error while it gets its connection. -/
def WriteFlush.preCommit (f : WriteFlush) (empty : Bool) (acquire : Option LowerError)
    (pending : Bool) : Option (Nat × Except Report Unit) :=
  if empty then some (0, .ok ())
  else
    match acquire with
    | some e => some (0, .error ⟨e.error, FlushPhase.beforeSend.errcontext⟩)
    | none => f.run.map fun e =>
      (e.attempts, e.result.mapError fun r => ⟨rethrowIndeterminate pending r, r.1.errcontext⟩)

/-- An error that says nothing was written is raised only if no attempt wrote, and
every other error says that the outcome is unknown. -/
def WriteFlush.ReportsHonestly (f : WriteFlush) : Prop :=
  ∀ empty acquire pending, ∃ n result, f.preCommit empty acquire pending = some (n, result) ∧
    ∀ report, result = .error report →
      (report.SaysNoChanges → ∀ i < n, ¬ (f.world i).Wrote) ∧
        (¬ report.SaysNoChanges → report.context = .mayHaveBeenApplied)

omit [Lua] in
theorem Report.unknown_of_not_says {r : Report} (h : ¬ r.SaysNoChanges) :
    r.context = .mayHaveBeenApplied := by
  cases hContext : r.context with
  | noChanges => exact absurd (.inr hContext) h
  | mayHaveBeenApplied => rfl

theorem Attempt.not_wrote_of_unrun {w : Attempt} (h : w.ran = none) : ¬ w.Wrote := by
  rintro ⟨e, hRan, -⟩
  rw [h] at hRan
  cases hRan

omit [Lua] in
theorem not_saysNoChanges_rethrow {pending : Bool} {r : Raised} (h : ¬ r.2.SaysNoChanges) :
    ¬ (rethrowIndeterminate pending r).SaysNoChanges := by
  unfold rethrowIndeterminate
  split
  · exact h
  · simp [SqlError.SaysNoChanges, errorIndeterminate, Hint.saysNoChanges]

/-- How a loop ends whose attempts never ran a program that they could not load. -/
theorem WriteFlush.turn_raised {f : WriteFlush} {s : Loop} {e : Ended} {r : Raised}
    (hHonest : ∀ i, (f.world i).Honest)
    (hLoad : s.load = true → (f.world s.attempts).loadRefused → ¬ (f.world s.attempts).Wrote)
    (hs : s.Unrun f) (h : f.turn s = .inl e) (hResult : e.result = .error r) :
    (r.1 = .sent ∧ ¬ r.2.SaysNoChanges) ∨ ∀ i < e.attempts, ¬ (f.world i).Wrote := by
  have hLast : ¬ (f.world s.attempts).Wrote → ∀ i < s.attempts + 1, ¬ (f.world i).Wrote := by
    intro hw i hi
    rcases Nat.lt_succ_iff_lt_or_eq.mp hi with hi | rfl
    · exact Attempt.not_wrote_of_unrun (hs i hi)
    · exact hw
  unfold WriteFlush.turn at h
  split at h
  · rename_i r' hAttempt
    cases h
    cases hResult
    rcases attempt_raised (hHonest _) hAttempt with hSent | ⟨-, hWrote⟩
    · exact .inl hSent
    · exact .inr (hLast fun hw => hLoad (hWrote hw).1 (hWrote hw).2 hw)
  · cases h
    cases hResult
  -- The flush gives up on an answer that would have had it try again.
  all_goals
    rename_i hAttempt
    split at h
    · cases h
      exact .inr (hLast (Attempt.not_wrote_of_unrun
        (attempt_retry (hHonest _).honestRetry hAttempt (by simp))))
    · cases h

theorem WriteFlush.reportsHonestly_iff {f : WriteFlush} (hHonest : ∀ i, (f.world i).Honest) :
    f.ReportsHonestly ↔ ∀ s, f.Reaches s → s.load = true →
      (f.world s.attempts).loadRefused → ¬ (f.world s.attempts).Wrote := by
  constructor
  · intro h s hReaches hSent hRefused hWrote
    have hQueue : (f.world s.attempts).queue = none := by
      cases hq : (f.world s.attempts).queue with
      | none => rfl
      | some e =>
        exact absurd hWrote (Attempt.not_wrote_of_unrun ((hHonest _).whole (by simp [hq])))
    obtain ⟨error, hTurn⟩ := f.turn_refused hQueue hSent hRefused
    obtain ⟨n, result, hCommit, hReport⟩ := h false none false
    simp only [WriteFlush.preCommit, hReaches.run_eq hTurn] at hCommit
    cases hCommit
    exact (hReport _ rfl).1 (.inr rfl) s.attempts (Nat.lt_succ_self _) hWrote
  · intro hLoad empty acquire pending
    unfold WriteFlush.preCommit
    split
    · refine ⟨0, .ok (), rfl, fun report hReport => ?_⟩
      cases hReport
    · split
      · exact ⟨0, _, rfl, fun report _ => ⟨fun _ i hi => absurd hi (Nat.not_lt_zero i),
          Report.unknown_of_not_says⟩⟩
      · obtain ⟨e, hRun, hEnd⟩ := f.run_spec (I := fun s => f.Reaches s ∧ s.Unrun f)
          (Q := fun e => ∀ r, e.result = .error r →
            (r.1 = .sent ∧ ¬ r.2.SaysNoChanges) ∨ ∀ i < e.attempts, ¬ (f.world i).Wrote)
          ⟨.refl, fun i hi => absurd hi (Nat.not_lt_zero i)⟩
          (fun s e hs hTurn r hr => f.turn_raised hHonest (hLoad s hs.1) hs.2 hTurn hr)
          (fun s t hs hTurn =>
            ⟨hs.1.tail hTurn, hs.2.next (fun i => (hHonest i).honestRetry) hTurn⟩)
        rw [hRun]
        refine ⟨e.attempts, _, rfl, fun report hReport => ⟨fun hSays => ?_,
          Report.unknown_of_not_says⟩⟩
        cases hResult : e.result with
        | ok u =>
          rw [hResult] at hReport
          cases hReport
        | error r =>
          rw [hResult] at hReport
          cases hReport
          rcases hEnd r hResult with ⟨hSent, hr⟩ | hClean
          · rcases hSays with hSays | hSays
            · exact absurd hSays (not_saysNoChanges_rethrow hr)
            · simp [FlushPhase.errcontext, hSent] at hSays
          · exact hClean

/-- An environment is a set of things that may befall an attempt. A flush in it reports
honestly exactly if no attempt that it makes writes although its `SCRIPT LOAD` was sent
and refused: the program may be in the server's cache all the same. All flushes do
exactly if no attempt in the environment is such. -/
theorem flush_reports_honestly {E : Attempt → Prop} (hHonest : ∀ w, E w → w.Honest) :
    (∀ f : WriteFlush, (∀ i, E (f.world i)) →
      (f.ReportsHonestly ↔ ∀ s, f.Reaches s → s.load = true →
        (f.world s.attempts).loadRefused → ¬ (f.world s.attempts).Wrote)) ∧
    ((∀ f : WriteFlush, (∀ i, E (f.world i)) → f.ReportsHonestly) ↔
      ∀ w, E w → w.loadRefused → ¬ w.Wrote) := by
  have hFlush (f : WriteFlush) (hf : ∀ i, E (f.world i)) :=
    f.reportsHonestly_iff fun i => hHonest _ (hf i)
  refine ⟨hFlush, fun h w hw => ?_, fun h f hf => (hFlush f hf).mpr fun s _ _ => h _ (hf _)⟩
  -- the environment has the flush that only ever meets this attempt
  let f : WriteFlush := ⟨0, 0, false, fun _ => w⟩
  exact (hFlush f fun _ => hw).mp (h f fun _ => hw) f.start .refl rfl

/-- The program is applied, whatever the server says to the `SCRIPT LOAD`. -/
def Attempt.applied (nplans : Lua.Num) (load : FlushReply) : Attempt where
  queue := none
  load := .ok (some load)
  eval := .ok (some (.status (ascii "VFDW1 OK " ++ Lua.tostring nplans)))
  cached := true
  ran := some (.ok nplans)

theorem Attempt.applied_honest (nplans : Lua.Num) (load : FlushReply) :
    (Attempt.applied nplans load).Honest where
  whole h := by cases h
  cached _ := rfl
  rejected str h := by cases h
  answer e r he hr := by
    cases he
    cases hr
    rfl
  status _ _ := rfl

theorem Attempt.applied_answered {nplans : Lua.Num} {load : FlushReply} {n : Nat} {sent : Bool}
    (h : acceptsStatus n (ascii "VFDW1 OK " ++ Lua.tostring nplans) = true) :
    (Attempt.applied nplans load).AnsweredOk n sent where
  queue := rfl
  load _ := ⟨_, rfl⟩
  eval := ⟨_, rfl, h⟩

theorem Attempt.applied_loaded (nplans : Lua.Num) : ¬ (Attempt.applied nplans .other).loadRefused := by
  rintro ⟨str, hLoad⟩
  cases hLoad

end Flush

theorem flush_reports_honestly_applied : letI := plainLua
    (⟨1, 3, false, fun _ => .applied (1 : Nat) .other⟩ : WriteFlush).ReportsHonestly :=
  (@flush_reports_honestly plainLua (fun w => w = @Attempt.applied plainLua (1 : Nat) .other)
    (fun _ h => h ▸ @Attempt.applied_honest plainLua _ _)).2.mpr (fun _ h hRefused =>
      absurd (h ▸ hRefused) (@Attempt.applied_loaded plainLua _)) _ fun _ => rfl

/-- The user may not load scripts, but another session has loaded the program: the
flush answers that no changes were applied to a user whose rows are all there. -/
theorem applied_but_denied : letI := plainLua
    (Attempt.applied (1 : Nat) (.error (ascii "NOPERM"))).Honest ∧
    (Attempt.applied (1 : Nat) (.error (ascii "NOPERM"))).Wrote ∧
    ∃ report, (⟨1, 3, false, fun _ => .applied (1 : Nat) (.error (ascii "NOPERM"))⟩ :
        WriteFlush).preCommit false none false = some (1, .error report) ∧
      report.context = .noChanges :=
  ⟨@Attempt.applied_honest plainLua _ _, ⟨_, rfl, trivial⟩, _, rfl, rfl⟩

section Flush

variable [Lua]

/-! ## The budgets -/

/-- What the turns of the loop have spent. -/
structure Loop.Within (f : WriteFlush) (s : Loop) : Prop where
  spent : s.attempts = s.busyRetries + s.reloads
  busy : s.busyRetries ≤ f.maxRetries
  forced : s.reloads = if s.forceLoad then 1 else 0

theorem Loop.Within.next {f : WriteFlush} {s t : Loop} (hs : s.Within f) (h : f.turn s = .inr t) :
    t.Within f := by
  have hSpent := hs.spent
  have hForced := hs.forced
  unfold WriteFlush.turn at h
  split at h
  · cases h
  · cases h
  · split at h
    · cases h
    · rename_i hForce
      cases h
      rw [if_neg hForce] at hForced
      refine ⟨?_, hs.busy, ?_⟩
      · dsimp only
        omega
      · simp [hForced]
  · split at h
    · cases h
    · cases h
      refine ⟨?_, ?_, hs.forced⟩
      · dsimp only
        omega
      · dsimp only
        omega

/-- The loop keeps to its budgets, returns exactly if its last attempt was answered
with the program's OK and the number of plans it sent, and has then run the program once. -/
def WriteFlush.AppliesOnce (f : WriteFlush) : Prop :=
  ∃ e, f.run = some e ∧ e.attempts ≤ f.maxRetries + 2 ∧ e.last.reloads ≤ 1 ∧
    (e.result = .ok () ↔ (f.world e.last.attempts).AnsweredOk f.nplans e.last.load) ∧
    (e.result = .ok () → ∃! i, i < e.attempts ∧ (f.world i).ran.isSome)

theorem WriteFlush.turn_result {f : WriteFlush} {s : Loop} {e : Ended} (h : f.turn s = .inl e) :
    e.last = s ∧ (e.result = .ok () ↔
      (f.world s.attempts).attempt f.nplans s.load = .ok .applied) := by
  unfold WriteFlush.turn at h
  split at h
  · rename_i hAttempt
    cases h
    simp [hAttempt]
  · rename_i hAttempt
    cases h
    simp [hAttempt]
  · rename_i hAttempt
    split at h
    · cases h
      simp [hAttempt]
    · cases h
  · rename_i hAttempt
    split at h
    · cases h
      simp [hAttempt]
    · cases h

theorem WriteFlush.appliesOnce_iff {f : WriteFlush} (hHonest : ∀ i, (f.world i).HonestRetry) :
    f.AppliesOnce ↔ ∀ s, f.Reaches s → s.load = true →
      (f.world s.attempts).loadRefused → ¬ (f.world s.attempts).AnsweredOk f.nplans true := by
  constructor
  · intro h s hReaches hSent hRefused hAnswered
    obtain ⟨error, hTurn⟩ := f.turn_refused hAnswered.queue hSent hRefused
    obtain ⟨e, hRun, -, -, hReturns, -⟩ := h
    cases (hReaches.run_eq hTurn).symm.trans hRun
    cases hReturns.mpr (hSent.symm ▸ hAnswered)
  · intro hLoad
    refine (f.run_spec (I := fun s => f.Reaches s ∧ s.Within f ∧ s.Unrun f)
      (Q := fun e => e.attempts ≤ f.maxRetries + 2 ∧ e.last.reloads ≤ 1 ∧
        (e.result = .ok () ↔ (f.world e.last.attempts).AnsweredOk f.nplans e.last.load) ∧
        (e.result = .ok () → ∃! i, i < e.attempts ∧ (f.world i).ran.isSome))
      ⟨.refl, ⟨rfl, Nat.zero_le _, rfl⟩, fun i hi => absurd hi (Nat.not_lt_zero i)⟩ ?_
      fun s t hs hTurn => ⟨hs.1.tail hTurn, hs.2.1.next hTurn, hs.2.2.next hHonest hTurn⟩)
    intro s e ⟨hReaches, hWithin, hUnrun⟩ hTurn
    obtain ⟨rfl, hResult⟩ := f.turn_result hTurn
    have hSpent := hWithin.spent
    have hBusy := hWithin.busy
    have hForced : e.last.reloads ≤ 1 := by
      rw [hWithin.forced]
      split <;> omega
    refine ⟨?_, hForced, ?_, ?_⟩
    · rw [Ended.attempts]
      omega
    · rw [hResult, attempt_applied]
      refine ⟨And.left, fun hAnswered => ⟨hAnswered, fun hSent hRefused => ?_⟩⟩
      rw [hSent] at hAnswered
      exact hLoad _ hReaches hSent hRefused hAnswered
    · intro hReturns
      obtain ⟨str, hStatus, -⟩ := (attempt_applied.mp (hResult.mp hReturns)).1.eval
      refine ⟨e.last.attempts, ⟨Nat.lt_succ_self _, (hHonest _).status str hStatus⟩, ?_⟩
      rintro i ⟨hi, hRan⟩
      rcases Nat.lt_succ_iff_lt_or_eq.mp hi with hi | rfl
      · rw [hUnrun i hi] at hRan
        cases hRan
      · rfl

/-- A flush applies the write once exactly if no attempt that it makes is answered with
the program's OK although its `SCRIPT LOAD` was sent and refused, and all flushes of an
environment do exactly if no attempt in it is. -/
theorem flush_applies_once {E : Attempt → Prop} (hHonest : ∀ w, E w → w.HonestRetry) :
    (∀ f : WriteFlush, (∀ i, E (f.world i)) →
      (f.AppliesOnce ↔ ∀ s, f.Reaches s → s.load = true →
        (f.world s.attempts).loadRefused → ¬ (f.world s.attempts).AnsweredOk f.nplans true)) ∧
    ((∀ f : WriteFlush, (∀ i, E (f.world i)) → f.AppliesOnce) ↔
      ∀ w, E w → w.loadRefused → ∀ nplans, ¬ w.AnsweredOk nplans true) := by
  have hFlush (f : WriteFlush) (hf : ∀ i, E (f.world i)) :=
    f.appliesOnce_iff fun i => hHonest _ (hf i)
  refine ⟨hFlush, fun h w hw hRefused nplans => ?_,
    fun h f hf => (hFlush f hf).mpr fun s _ _ hRefused => h _ (hf _) hRefused _⟩
  let f : WriteFlush := ⟨nplans, 0, false, fun _ => w⟩
  exact (hFlush f fun _ => hw).mp (h f fun _ => hw) f.start .refl rfl hRefused

end Flush

theorem flush_applies_once_applied : letI := plainLua
    (⟨1, 3, false, fun _ => .applied (1 : Nat) .other⟩ : WriteFlush).AppliesOnce :=
  (@flush_applies_once plainLua (fun w => w = @Attempt.applied plainLua (1 : Nat) .other)
    (fun _ h => h ▸ @Attempt.Honest.honestRetry plainLua _ (@Attempt.applied_honest plainLua _ _))).2.mpr
      (fun _ h hRefused => absurd (h ▸ hRefused) (@Attempt.applied_loaded plainLua _)) _ fun _ => rfl

/-- The last attempt was answered with the program's OK, and the loop raised. -/
theorem answered_but_denied : letI := plainLua
    (Attempt.applied (1 : Nat) (.error (ascii "NOPERM"))).HonestRetry ∧
    ∃ e, (⟨1, 3, false, fun _ => .applied (1 : Nat) (.error (ascii "NOPERM"))⟩ :
        WriteFlush).run = some e ∧
      (Attempt.applied (1 : Nat) (.error (ascii "NOPERM"))).AnsweredOk 1 e.last.load ∧
      e.result ≠ .ok () := by
  refine ⟨@Attempt.Honest.honestRetry plainLua _ (@Attempt.applied_honest plainLua _ _), _, rfl,
    @Attempt.applied_answered plainLua _ _ _ _ ?_, nofun⟩
  decide

end ValkeyFdw
