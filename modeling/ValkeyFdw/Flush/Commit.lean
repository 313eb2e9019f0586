import ValkeyFdw.Flush.System
import ValkeyFdw.Refine.Sequential
import ValkeyFdw.Session.Serial

/-!
# What a COMMIT means

Every reachable state of the sessions and their server keeps `FlushSystem.Inv`. From
it follow

* `flush_program_runs_once`: no flush has its program run twice, retries included;
* `commit_is_one_step`: a COMMIT that returned is one entry of the log, made between its
  beginning and its end, and the entry is the transaction's writes in order;
* `no_changes_is_final`: an error that says nothing was written stays true.
-/

namespace ValkeyFdw

open Server Trace

/-! ## The buffer of a COMMIT -/

theorem Tracks.done {s : Tracked} (h : Tracks s) (hNest : s.backend.nest ≤ 1) :
    Tracks s.done := by
  obtain ⟨t, hAbort, ht⟩ := h.abort .refl
  rw [Tracked.abort_top hNest] at hAbort
  cases hAbort
  exact ht

theorem Tracks.nlive_eq_zero {s : Tracked} (h : Tracks s)
    (hLive : s.backend.buffer.nlive = 0) : s.liveOps = [] := by
  have hOps : s.backend.buffer.ops = [] := List.eq_nil_of_length_eq_zero (h.nlive.symm.trans hLive)
  have hMap := h.unlevelled
  rw [hOps, List.map_nil] at hMap
  exact List.map_eq_nil_iff.mp hMap.symm

theorem plain_unlevelled {ops : List WriteOp} (h : PlainTransaction ops) :
    PlainTransaction (ops.map WriteOp.unlevelled) where
  noRename := List.forall_mem_map.mpr h.noRename
  oneType := List.forall_mem_map.mpr fun op hOp => List.forall_mem_map.mpr (h.oneType op hOp)
  noIndexKey := List.forall_mem_map.mpr fun op hOp => List.forall_mem_map.mpr (h.noIndexKey op hOp)

theorem plain_of_unlevelled {ops : List WriteOp}
    (h : PlainTransaction (ops.map WriteOp.unlevelled)) : PlainTransaction ops where
  noRename := List.forall_mem_map.mp h.noRename
  oneType op hOp := List.forall_mem_map.mp (List.forall_mem_map.mp h.oneType op hOp)
  noIndexKey op hOp op' hOp' :=
    h.noIndexKey op.unlevelled (List.mem_map_of_mem hOp) op'.unlevelled (List.mem_map_of_mem hOp')

section Sequential

variable [Doubles]

theorem execOps_unlevelled (now : Nat) (ops : List WriteOp) :
    execOps now (ops.map WriteOp.unlevelled) = execOps now ops := by
  induction ops with
  | nil => rfl
  | cons op ops ih =>
    funext ks
    have hOp : op.unlevelled.exec now ks = op.exec now ks := rfl
    change (op.unlevelled.exec now ks).bind (execOps now (ops.map WriteOp.unlevelled)) = _
    rw [hOp, ih]
    rfl

/-- The program of a buffer does what the statements that were not rolled back did, in
the order they did it. -/
theorem Tracks.execOps_live {s : Tracked} (h : Tracks s) (hPlain : PlainTransaction s.liveOps)
    {now m : Nat} {before after : Keyspace}
    (hRun : runProgram now s.backend.buffer.ledger.plans before = (.ok m, after)) :
    execOps now s.liveOps before = .ok after := by
  have hBuffer : PlainTransaction s.backend.buffer.ops :=
    plain_of_unlevelled (h.unlevelled ▸ plain_unlevelled hPlain)
  rw [← execOps_unlevelled, ← h.unlevelled, execOps_unlevelled]
  refine execOps_of_runProgram h.folded (Ledger.From.along fun L hL op hOp => ?_) hRun
  exact ⟨hBuffer.inOrder hL hOp, hBuffer.zsetAgrees hL hOp⟩

end Sequential

/-- What the loop makes of an outcome that the server did not run the program for. -/
theorem Loop.after_retry (maxRetries : Nat) (s : Loop) {o : FlushOutcome} (ho : o ≠ .applied) :
    (∃ r, s.after maxRetries o = .inl ⟨s, .error r⟩) ∨ ∃ t, s.after maxRetries o = .inr t := by
  cases o with
  | applied => exact absurd rfl ho
  | retryNoscript =>
    simp only [Loop.after]
    split
    · exact .inl ⟨_, rfl⟩
    · exact .inr ⟨_, rfl⟩
  | retryBusy =>
    simp only [Loop.after]
    split
    · exact .inl ⟨_, rfl⟩
    · exact .inr ⟨_, rfl⟩

/-! ## The invariant -/

section Invariant

variable [Lua] [Doubles] {ι : Type}

/-- The entry of the log is a run of the packet's program that ended so. -/
def Packet.RunAs (p : Packet) (e : LuaEnd) (entry : FlushEntry ι) : Prop :=
  entry.outcome = some e ∧ ∃ now, runLua now p.KEYS p.ARGV entry.before = (e, entry.after)

/-- A packet and the runs of its flush. -/
structure Packet.Served (p : Packet) (runs : List (FlushEntry ι)) : Prop where
  honest : ∀ a, p.answer = some a → a.Honest
  unrun : (∀ a, p.answer = some a → a.ran = none) → runs = []
  ran : ∀ a e, p.answer = some a → a.ran = some e → ∃ entry, runs = [entry] ∧ p.RunAs e entry

theorem Packet.served_unanswered {p : Packet} {runs : List (FlushEntry ι)}
    (hAnswer : p.answer = none) (hRuns : runs = []) : p.Served runs where
  honest a ha := by
    rw [hAnswer] at ha
    cases ha
  unrun _ := hRuns
  ran a e ha := by
    rw [hAnswer] at ha
    cases ha

theorem Packet.Served.answered {p : Packet} {a : Answer} {e : LuaEnd} {entry : FlushEntry ι}
    (hAnswer : p.answer = some a) (hHonest : a.Honest) (hRan : a.ran = some e)
    (hRun : p.RunAs e entry) : p.Served [entry] where
  honest b hb := by
    cases hAnswer.symm.trans hb
    exact hHonest
  unrun hNone := by cases hRan.symm.trans (hNone a hAnswer)
  ran b e' hb he' := by
    cases hAnswer.symm.trans hb
    cases hRan.symm.trans he'
    exact ⟨_, rfl, hRun⟩

/-- The numbers of a ledger that its encoding sends fit an `int`. -/
structure Ledger.FitsWire (L : Ledger) : Prop where
  ints : L.FitsInt
  counts : ∀ plan ∈ L.plans, ∀ value count, .lvalueCountGe value count ∈ plan.checks →
    count < 2 ^ 31

theorem Packet.RunAs.program (hLua : Lua.Decimals) {L : Ledger} (hFits : L.FitsWire) {p : Packet}
    (hEncode : scriptEncode L.plans = .ok (p.KEYS, p.ARGV)) {n : Lua.Num} {entry : FlushEntry ι}
    (hRun : p.RunAs (.ok n) entry) :
    ∃ now m, runProgram now L.plans entry.before = (.ok m, entry.after) := by
  obtain ⟨-, now, hRun⟩ := hRun
  obtain ⟨KEYS, ARGV, nplans, hEncode', -, hSame⟩ :=
    runLua_encode hLua hFits.ints hFits.counts now entry.before
  cases hEncode.symm.trans hEncode'
  rw [hSame] at hRun
  refine ⟨now, ?_⟩
  rcases hProgram : runProgram now L.plans entry.before with ⟨reply, after⟩
  rw [hProgram] at hRun
  cases reply with
  | ok m =>
    cases hRun
    exact ⟨m, rfl⟩
  | failed f => cases hRun

theorem ScriptHost.evalsha_cases (now : Nat) (KEYS ARGV : List Bytes) (verdict : Option Bytes)
    (h : ScriptHost) :
    ((h.evalsha now KEYS ARGV verdict).1.ran = none ∧ (h.evalsha now KEYS ARGV verdict).2 = h) ∨
      ∃ e, (h.evalsha now KEYS ARGV verdict).1.ran = some e ∧
        runLua now KEYS ARGV h.store = (e, (h.evalsha now KEYS ARGV verdict).2.store) := by
  unfold ScriptHost.evalsha
  split
  · exact .inl ⟨rfl, rfl⟩
  · split
    · exact .inr ⟨_, rfl, rfl⟩
    · exact .inl ⟨rfl, rfl⟩

variable [DecidableEq ι]

namespace FlushSystem

/-- A COMMIT under way. -/
structure FlushingOk (sys : FlushSystem ι) (i : ι) (f : Flushing) : Prop where
  nest : (sys.sessions i).tracked.backend.nest ≤ 1
  live : (sys.sessions i).tracked.backend.buffer.nlive ≠ 0
  begun : f.begun ≤ sys.log.length
  late : ∀ e ∈ sys.log.take f.begun, e.txn ≠ .flush i (sys.sessions i).number
  encoded : ∀ p, sys.wire i (sys.sessions i).number = some p →
    scriptEncode (sys.sessions i).tracked.backend.buffer.ledger.plans = .ok (p.KEYS, p.ARGV)

/-- A session between its statements or in its COMMIT. -/
structure SessionOk (sys : FlushSystem ι) (i : ι) : Prop where
  tracks : Tracks (sys.sessions i).tracked
  /-- Nothing is on its way for a flush that has not sent anything. -/
  ahead : ∀ n, (sys.sessions i).number < n ∨
    n = (sys.sessions i).number ∧ (sys.sessions i).sent = false →
      sys.wire i n = none ∧ sys.runs i n = []
  flushing : ∀ f, (sys.sessions i).flushing = some f → sys.FlushingOk i f

/-- The server has nothing left to run of a flush. -/
def Closed (sys : FlushSystem ι) (i : ι) (n : Nat) : Prop :=
  ∀ p, sys.wire i n = some p → p.answer.isSome

/-- The one run of a COMMIT that returned. -/
structure AppliedIn (sys : FlushSystem ι) (o : Over ι) (entry : FlushEntry ι) :
    Prop where
  runs : sys.runs o.session o.number = [entry]
  late : entry ∉ sys.log.take o.begun
  early : entry ∈ sys.log.take o.ended
  program : ∃ (p : Packet) (n : Lua.Num),
    scriptEncode o.tracked.backend.buffer.ledger.plans = .ok (p.KEYS, p.ARGV) ∧
      p.RunAs (.ok n) entry

/-- What the log says for the outcome of a COMMIT. -/
structure Backs (sys : FlushSystem ι) (o : Over ι) : Prop where
  ok : o.outcome = .ok () → sys.Closed o.session o.number ∧
    ((o.tracked.backend.buffer.nlive = 0 ∧ sys.runs o.session o.number = []) ∨
      (o.tracked.backend.buffer.nlive ≠ 0 ∧ ∃ entry, sys.AppliedIn o entry))
  clean : ∀ r, o.outcome = .error r → r.SaysNoChanges → r.error.message ≠ .notLoaded →
    sys.Closed o.session o.number ∧
      ∀ entry ∈ sys.runs o.session o.number, entry.after = entry.before

/-- A COMMIT that is over. -/
structure Settled (sys : FlushSystem ι) (o : Over ι) : Prop where
  tracks : Tracks o.tracked
  past : o.number < (sys.sessions o.session).number
  span : o.begun ≤ o.ended ∧ o.ended ≤ sys.log.length
  backed : sys.Backs o

/-- What every state keeps that a run from the store reaches by way of one in which some
COMMITs were over. -/
structure Inv (ks : Keyspace) (old : List (Over ι)) (sys : FlushSystem ι) : Prop where
  chain : History.Chain ks sys.log sys.host.store
  served : ∀ i n p, sys.wire i n = some p → p.Served (sys.runs i n)
  once : ∀ i n, (sys.runs i n).length ≤ 1
  session : ∀ i, sys.SessionOk i
  finished : ∀ o ∈ sys.finished, sys.Settled o
  kept : old ⊆ sys.finished

theorem Inv.start (host : ScriptHost) :
    (FlushSystem.start ι host).Inv host.store [] where
  chain := rfl
  served i n p hp := by cases hp
  once i n := Nat.zero_le 1
  session i := ⟨Tracks.start, fun n _ => ⟨rfl, rfl⟩, fun f hf => by cases hf⟩
  finished o ho := by cases ho
  kept := List.Subset.refl _

variable {ks : Keyspace} {old : List (Over ι)} {sys sys' : FlushSystem ι} {i : ι}

/-! ## What other acts leave alone -/

section Sent

omit [Doubles]

omit [DecidableEq ι] in
theorem take_log (hLog : sys.log <+: sys'.log) {k : Nat} (hk : k ≤ sys.log.length) :
    sys'.log.take k = sys.log.take k := by
  obtain ⟨new, hNew⟩ := hLog
  rw [← hNew, List.take_append_of_le_length hk]

/-- Packets move on and the log grows without touching what a session has not sent. -/
theorem SessionOk.mono (h : sys.SessionOk i)
    (hSession : sys'.sessions i = sys.sessions i) (hLog : sys.log <+: sys'.log)
    (hQuiet : ∀ n, sys.wire i n = none → sys'.wire i n = none ∧ sys'.runs i n = sys.runs i n)
    (hSame : ∀ n p', sys'.wire i n = some p' →
      ∃ p, sys.wire i n = some p ∧ p'.KEYS = p.KEYS ∧ p'.ARGV = p.ARGV) : sys'.SessionOk i where
  tracks := hSession ▸ h.tracks
  ahead n hn := by
    rw [hSession] at hn
    obtain ⟨hWire, hRuns⟩ := h.ahead n hn
    obtain ⟨hWire', hRuns'⟩ := hQuiet n hWire
    exact ⟨hWire', hRuns'.trans hRuns⟩
  flushing f hf := by
    rw [hSession] at hf
    have hOk := h.flushing f hf
    refine ⟨hSession ▸ hOk.nest, hSession ▸ hOk.live, hOk.begun.trans hLog.length_le, ?_, ?_⟩
    · rw [take_log hLog hOk.begun, hSession]
      exact hOk.late
    · intro p' hp'
      rw [hSession] at hp' ⊢
      obtain ⟨p, hp, hKeys, hArgv⟩ := hSame _ p' hp'
      rw [hKeys, hArgv]
      exact hOk.encoded p hp

theorem SessionOk.quiet (h : sys.SessionOk i) (hSent : (sys.sessions i).sent = false) :
    sys.Closed i (sys.sessions i).number ∧ sys.runs i (sys.sessions i).number = [] := by
  obtain ⟨hWire, hRuns⟩ := h.ahead _ (.inr ⟨rfl, hSent⟩)
  refine ⟨fun p hp => ?_, hRuns⟩
  rw [hWire] at hp
  cases hp

theorem SessionOk.sent (h : sys.SessionOk i) {n : Nat} {p : Packet}
    (hp : sys.wire i n = some p) : n < (sys.sessions i).number ∨
      n = (sys.sessions i).number ∧ (sys.sessions i).sent = true := by
  by_contra hNot
  have hAhead : (sys.sessions i).number < n ∨
      n = (sys.sessions i).number ∧ (sys.sessions i).sent = false := by
    rw [not_or, not_and, Bool.not_eq_true] at hNot
    rcases Nat.lt_trichotomy n (sys.sessions i).number with hn | hn | hn
    · exact absurd hn hNot.1
    · exact .inr ⟨hn, hNot.2 hn⟩
    · exact .inl hn
  rw [(h.ahead n hAhead).1] at hp
  cases hp

theorem setWire_wire (p : Option Packet) (n : Nat) (j : ι) (m : Nat) :
    (sys.setWire i n p).wire j m = if j = i ∧ m = n then p else sys.wire j m := by
  simp only [setWire, Function.update_apply]
  by_cases hj : j = i
  · subst hj
    by_cases hm : m = n <;> simp [hm]
  · simp [hj]

omit [DecidableEq ι] in
theorem waiting_eq_some {f : Flushing} {p : Packet}
    (h : sys.waiting i = some (f, p)) : (sys.sessions i).flushing = some f ∧
      sys.wire i (sys.sessions i).number = some p ∧ f.sent = true := by
  unfold waiting at h
  split at h
  · rename_i f' p' hf hp
    split at h
    · rename_i hSent
      cases h
      exact ⟨hf, hp, hSent⟩
    · cases h
  · cases h

/-- An error of the flush is reported as unknown, as the refusal of a `SCRIPT LOAD`, or
with nothing left to run and nothing written. -/
def Excuses (sys : FlushSystem ι) (i : ι) (r : Raised) : Prop :=
  (r.1 = .sent ∧ ¬ r.2.SaysNoChanges) ∨ (r.1 ≠ .sent ∧ r.2.message = .notLoaded) ∨
    (sys.Closed i (sys.sessions i).number ∧
      ∀ entry ∈ sys.runs i (sys.sessions i).number, entry.after = entry.before)

theorem excuses_of_quiet
    (h : sys.Closed i (sys.sessions i).number ∧ sys.runs i (sys.sessions i).number = [])
    (r : Raised) : sys.Excuses i r := by
  refine .inr (.inr ⟨h.1, fun entry hEntry => ?_⟩)
  rw [h.2] at hEntry
  cases hEntry

end Sent

theorem Backs.mono {o : Over ι} (h : sys.Backs o)
    (hSpan : o.begun ≤ o.ended ∧ o.ended ≤ sys.log.length) (hLog : sys.log <+: sys'.log)
    (hClosed : sys.Closed o.session o.number → sys'.Closed o.session o.number ∧
      sys'.runs o.session o.number = sys.runs o.session o.number) : sys'.Backs o where
  ok hOk := by
    obtain ⟨hDone, hRuns⟩ := h.ok hOk
    obtain ⟨hDone', hSame⟩ := hClosed hDone
    refine ⟨hDone', hRuns.imp (fun hEmpty => ⟨hEmpty.1, hSame.trans hEmpty.2⟩) ?_⟩
    rintro ⟨hLive, entry, hApplied⟩
    refine ⟨hLive, entry, hSame.trans hApplied.runs, ?_, ?_, hApplied.program⟩
    · rw [take_log hLog (hSpan.1.trans hSpan.2)]
      exact hApplied.late
    · rw [take_log hLog hSpan.2]
      exact hApplied.early
  clean r hr hSays hMessage := by
    obtain ⟨hDone, hRuns⟩ := h.clean r hr hSays hMessage
    obtain ⟨hDone', hSame⟩ := hClosed hDone
    exact ⟨hDone', hSame ▸ hRuns⟩

theorem Excuses.backs {r : Raised} (h : sys.Excuses i r) (begun : Nat)
    (pending : Bool) :
    sys.Backs (sys.ending i begun (.error ⟨rethrowIndeterminate pending r, r.1.errcontext⟩)) where
  ok hOk := by cases hOk
  clean report hReport hSays hMessage := by
    cases hReport
    rcases h with ⟨hSent, hNot⟩ | ⟨hSent, hLoad⟩ | hClean
    · rcases hSays with hSays | hSays
      · exact absurd hSays (not_saysNoChanges_rethrow hNot)
      · simp [FlushPhase.errcontext, hSent] at hSays
    · have hSame : rethrowIndeterminate pending r = r.2 := by
        simp [rethrowIndeterminate, rethrows, hSent]
      exact absurd (hSame ▸ hLoad) hMessage
    · exact hClean

theorem Settled.mono {o : Over ι} (h : sys.Settled o)
    (hNumber : (sys.sessions o.session).number ≤ (sys'.sessions o.session).number)
    (hLog : sys.log <+: sys'.log)
    (hClosed : sys.Closed o.session o.number → sys'.Closed o.session o.number ∧
      sys'.runs o.session o.number = sys.runs o.session o.number) : sys'.Settled o where
  tracks := h.tracks
  past := h.past.trans_le hNumber
  span := ⟨h.span.1, h.span.2.trans hLog.length_le⟩
  backed := h.backed.mono h.span hLog hClosed

variable (h : sys.Inv ks old)
include h

/-! ## Sessions -/

theorem Inv.setSession {c : Committer}
    (hNumber : (sys.sessions i).number ≤ c.number) (hOk : (sys.setSession i c).SessionOk i) :
    (sys.setSession i c).Inv ks old where
  chain := h.chain
  served := h.served
  once := h.once
  session j := by
    by_cases hj : j = i
    · exact hj ▸ hOk
    · exact (h.session j).mono (Function.update_of_ne hj _ _) List.prefix_rfl
        (fun n hn => ⟨hn, rfl⟩) fun n p hp => ⟨p, hp, rfl, rfl⟩
  finished o ho := by
    refine (h.finished o ho).mono ?_ List.prefix_rfl fun hClosed => ⟨hClosed, rfl⟩
    by_cases ho' : o.session = i
    · simpa [FlushSystem.setSession, ho'] using hNumber
    · simp [FlushSystem.setSession, Function.update_of_ne ho']
  kept := h.kept

variable {f : Flushing} {n : Nat} {p : Packet} {pending : Bool} {a : Answer}

theorem Inv.setFlushing (hf : sys.FlushingOk i f)
    (hUnsent : f.sent = false → sys.wire i (sys.sessions i).number = none ∧
      sys.runs i (sys.sessions i).number = []) :
    (sys.setSession i { sys.sessions i with flushing := some f }).Inv ks old := by
  have hSession : (sys.setSession i { sys.sessions i with flushing := some f }).sessions i =
      { sys.sessions i with flushing := some f } := Function.update_self _ _ _
  refine h.setSession (Nat.le_refl _) ⟨?_, fun n hn => ?_, fun g hg => ?_⟩
  · rw [hSession]
    exact (h.session i).tracks
  · rw [hSession] at hn
    rcases hn with hn | ⟨rfl, hn⟩
    · exact (h.session i).ahead n (.inl hn)
    · exact hUnsent hn
  · rw [hSession] at hg
    cases hg
    refine ⟨?_, ?_, hf.begun, ?_, ?_⟩
    all_goals rw [hSession]
    exacts [hf.nest, hf.live, hf.late, hf.encoded]

theorem Inv.finish
    (hNest : (sys.sessions i).tracked.backend.nest ≤ 1) {begun : Nat}
    (hBegun : begun ≤ sys.log.length) {outcome : Except Report Unit}
    (hBacks : sys.Backs (sys.ending i begun outcome)) :
    (sys.finish i begun outcome).Inv ks old := by
  have hi := h.session i
  have hSession : (sys.setSession i ⟨(sys.sessions i).tracked.done, (sys.sessions i).number + 1,
      none⟩).Inv ks old := by
    refine h.setSession (Nat.le_succ _) ⟨?_, fun n hn => ?_, fun f hf => ?_⟩
    · simpa [FlushSystem.setSession] using hi.tracks.done hNest
    · refine hi.ahead n (.inl ?_)
      simp only [FlushSystem.setSession, Function.update_self] at hn
      omega
    · simp [FlushSystem.setSession] at hf
  refine ⟨hSession.chain, hSession.served, hSession.once, fun j => ?_, fun o ho => ?_,
    List.subset_append_of_subset_left _ h.kept⟩
  · exact (hSession.session j).mono rfl List.prefix_rfl (fun n hn => ⟨hn, rfl⟩)
      fun n p hp => ⟨p, hp, rfl, rfl⟩
  · rcases List.mem_append.mp ho with ho | ho
    · exact (hSession.finished o ho).mono (Nat.le_refl _) List.prefix_rfl fun hClosed =>
        ⟨hClosed, rfl⟩
    · obtain rfl := List.mem_singleton.mp ho
      refine ⟨hi.tracks, ?_, ⟨hBegun, Nat.le_refl _⟩, ?_⟩
      · simp [FlushSystem.finish, FlushSystem.setSession, ending]
      · exact hBacks.mono ⟨hBegun, Nat.le_refl _⟩ List.prefix_rfl fun hClosed => ⟨hClosed, rfl⟩

theorem Inv.raised (hf : (sys.sessions i).flushing = some f) {r : Raised} (hr : sys.Excuses i r)
    (pending : Bool) : (sys.conclude i f pending (.error r)).Inv ks old := by
  have hOk := (h.session i).flushing f hf
  exact h.finish hOk.nest hOk.begun (hr.backs f.begun pending)

theorem Inv.beginCommit {maxRetries : Nat} {scriptLoaded : Bool}
    {acquire : Option LowerError}
    (hAct : sys.beginCommit i maxRetries scriptLoaded acquire = some sys') : sys'.Inv ks old := by
  have hi := h.session i
  unfold FlushSystem.beginCommit at hAct
  dsimp only at hAct
  split at hAct
  · cases hAct
  · rename_i hEnabled
    simp only [Bool.or_eq_true, decide_eq_true_eq, not_or, not_lt, Bool.not_eq_true,
      Option.isSome_eq_false_iff, Option.isNone_iff_eq_none] at hEnabled
    obtain ⟨hIdle, hNest⟩ := hEnabled
    have hUnsent : (sys.sessions i).sent = false := by simp [Committer.sent, hIdle]
    have hQuiet := hi.quiet hUnsent
    split at hAct
    · rename_i hEmpty
      cases hAct
      refine h.finish hNest (Nat.le_refl _) ⟨fun _ => ⟨hQuiet.1, .inl ⟨hEmpty, hQuiet.2⟩⟩, ?_⟩
      intro r hr
      cases hr
    · rename_i hLive
      split at hAct
      · cases hAct
        exact h.finish hNest (Nat.le_refl _)
          ((excuses_of_quiet hQuiet (.beforeSend, _)).backs _ false)
      · cases hAct
        have hAhead := hi.ahead _ (.inr ⟨rfl, hUnsent⟩)
        refine h.setFlushing ⟨hNest, hLive, Nat.le_refl _, fun e he hTxn => ?_, fun p hp => ?_⟩
          fun _ => hAhead
        · have hRun : e ∈ sys.runs i (sys.sessions i).number :=
            History.mem_entriesOf.mpr ⟨List.mem_of_mem_take he, hTxn⟩
          rw [hAhead.2] at hRun
          cases hRun
        · rw [hAhead.1] at hp
          cases hp

/-! ## Packets -/

/-- A packet is put on the wire or moves on. -/
theorem Inv.setWire {p : Option Packet} (hServed : ∀ q, p = some q → q.Served (sys.runs i n))
    (hSent : p ≠ none → n < (sys.sessions i).number ∨
      n = (sys.sessions i).number ∧ (sys.sessions i).sent = true)
    (hEncoded : n = (sys.sessions i).number → ∀ q, p = some q →
      scriptEncode (sys.sessions i).tracked.backend.buffer.ledger.plans = .ok (q.KEYS, q.ARGV))
    (hClosed : n < (sys.sessions i).number → sys.Closed i n → ∀ q, p = some q →
      q.answer.isSome) : (sys.setWire i n p).Inv ks old where
  chain := h.chain
  served j m q hq := by
    rw [setWire_wire] at hq
    split at hq
    · rename_i hAt
      obtain ⟨rfl, rfl⟩ := hAt
      exact hServed q hq
    · exact h.served j m q hq
  once := h.once
  session j := by
    have hj := h.session j
    refine ⟨hj.tracks, fun m hm => ?_, fun f hf => ?_⟩
    · obtain ⟨hWire, hRuns⟩ := hj.ahead m hm
      refine ⟨?_, hRuns⟩
      rw [setWire_wire]
      split
      · rename_i hAt
        obtain ⟨rfl, rfl⟩ := hAt
        by_contra hSome
        have hNumber : (sys.setWire j m p).sessions j = sys.sessions j := rfl
        rw [hNumber] at hm
        rcases hSent hSome with hLt | ⟨hEq, hSent⟩
        · omega
        · rcases hm with hm | ⟨-, hm⟩
          · omega
          · rw [hSent] at hm
            cases hm
      · exact hWire
    · have hFlush := hj.flushing f hf
      refine ⟨hFlush.nest, hFlush.live, hFlush.begun, hFlush.late, fun q hq => ?_⟩
      rw [setWire_wire] at hq
      split at hq
      · rename_i hAt
        obtain ⟨rfl, hn⟩ := hAt
        exact hEncoded hn.symm q hq
      · exact hFlush.encoded q hq
  finished o ho := by
    have hSettled := h.finished o ho
    refine hSettled.mono (Nat.le_refl _) List.prefix_rfl fun hDone => ⟨fun q hq => ?_, rfl⟩
    rw [setWire_wire] at hq
    split at hq
    · rename_i hAt
      rw [hAt.1, hAt.2] at hDone
      have hPast := hSettled.past
      rw [hAt.1, hAt.2] at hPast
      exact hClosed hPast hDone q hq
    · exact hDone q hq
  kept := h.kept

theorem Inv.movePacket {q : Packet} (hp : sys.wire i n = some p) (hServed : q.Served (sys.runs i n))
    (hKeys : q.KEYS = p.KEYS) (hArgv : q.ARGV = p.ARGV)
    (hAnswer : p.answer.isSome → q.answer.isSome) :
    (sys.setWire i n (some q)).Inv ks old := by
  refine h.setWire (fun q' hq' => ?_) (fun _ => (h.session i).sent hp) (fun hn q' hq' => ?_)
    fun _ hClosed q' hq' => ?_
  · cases hq'
    exact hServed
  · cases hq'
    rw [hKeys, hArgv]
    subst hn
    have hSent : (sys.sessions i).sent = true := by
      rcases (h.session i).sent hp with hLt | ⟨-, hSent⟩
      · exact absurd hLt (lt_irrefl _)
      · exact hSent
    obtain ⟨f, hf, -⟩ : ∃ f, (sys.sessions i).flushing = some f ∧ f.sent = true := by
      simpa [Committer.sent, Option.any_eq_true] using hSent
    exact ((h.session i).flushing f hf).encoded p hp
  · cases hq'
    exact hAnswer (hClosed p hp)

theorem Inv.queue {fault : Option LowerError} (hAct : sys.queue i fault pending = some sys') :
    sys'.Inv ks old := by
  have hi := h.session i
  unfold FlushSystem.queue at hAct
  dsimp only at hAct
  split at hAct
  · cases hAct
  · rename_i f hf
    split at hAct
    · cases hAct
    · rename_i hUnsent
      have hSent : (sys.sessions i).sent = false := by simpa [Committer.sent, hf] using hUnsent
      have hQuiet := hi.quiet hSent
      split at hAct
      · cases hAct
        exact h.raised hf (excuses_of_quiet hQuiet _) pending
      · split at hAct
        · cases hAct
          exact h.raised hf (excuses_of_quiet hQuiet _) pending
        · rename_i KEYS ARGV hEncode
          cases hAct
          have hFlush := hi.flushing f hf
          have hSession := h.setFlushing (f := { f with sent := true })
            ⟨hFlush.nest, hFlush.live, hFlush.begun, hFlush.late, hFlush.encoded⟩
            fun hNot => by cases hNot
          refine hSession.setWire (fun q hq => ?_) (fun _ => .inr ?_) (fun _ q hq => ?_)
            fun hLt => ?_
          · cases hq
            exact Packet.served_unanswered rfl hQuiet.2
          · simp [FlushSystem.setSession, Committer.sent]
          · cases hq
            simpa [FlushSystem.setSession] using hEncode
          · simp [FlushSystem.setSession] at hLt

/-! ## The server -/

theorem Inv.setHost {host : ScriptHost}
    (hStore : host.store = sys.host.store) : FlushSystem.Inv ks old { sys with host := host } where
  chain := hStore ▸ h.chain
  served := h.served
  once := h.once
  session j := (h.session j).mono rfl List.prefix_rfl (fun _ hn => ⟨hn, rfl⟩)
    fun _ p hp => ⟨p, hp, rfl, rfl⟩
  finished o ho := (h.finished o ho).mono (Nat.le_refl _) List.prefix_rfl fun hClosed =>
    ⟨hClosed, rfl⟩
  kept := h.kept

theorem Inv.takeLoad {verdict : Option Bytes} (hAct : sys.takeLoad i n verdict = some sys') :
    sys'.Inv ks old := by
  unfold FlushSystem.takeLoad at hAct
  split at hAct
  · cases hAct
  · rename_i p hp
    split at hAct
    · cases hAct
      have hStore : (sys.host.scriptLoad verdict).2.store = sys.host.store := by
        unfold ScriptHost.scriptLoad
        split <;> rfl
      have hServed := h.served i n p hp
      exact (h.setHost hStore).movePacket hp ⟨hServed.honest, hServed.unrun, hServed.ran⟩ rfl rfl id
    · cases hAct

theorem Inv.ran {now : Nat} {e : LuaEnd} {host : ScriptHost} (hp : sys.wire i n = some p)
    (hAnswer : p.answer = none) (hHonest : a.Honest) (hRan : a.ran = some e)
    (hLua : runLua now p.KEYS p.ARGV sys.host.store = (e, host.store)) :
    FlushSystem.Inv ks old (FlushSystem.setWire { sys with
      host := host
      log := sys.log ++ [⟨.flush i n, some e, sys.host.store, host.store⟩] } i n
        (some { p with answer := some a })) := by
  have hUnrun : sys.runs i n = [] := (h.served i n p hp).unrun (by simp [hAnswer])
  generalize hSys' : FlushSystem.setWire { sys with
      host := host
      log := sys.log ++ [⟨.flush i n, some e, sys.host.store, host.store⟩] } i n
        (some { p with answer := some a }) = sys'
  have hLog : sys'.log = sys.log ++ [⟨.flush i n, some e, sys.host.store, host.store⟩] := by
    rw [← hSys']
    rfl
  have hSessions : sys'.sessions = sys.sessions := by
    rw [← hSys']
    rfl
  have hWire : ∀ j m, sys'.wire j m =
      if j = i ∧ m = n then some { p with answer := some a } else sys.wire j m := by
    intro j m
    rw [← hSys', setWire_wire]
  have hHere : sys'.runs i n = [⟨.flush i n, some e, sys.host.store, host.store⟩] := by
    rw [runs, hLog]
    refine (History.entriesOf_snoc_self ?_).trans (congrArg (· ++ _) hUnrun)
    rfl
  have hElse : ∀ j m, ¬ (j = i ∧ m = n) → sys'.runs j m = sys.runs j m := by
    intro j m hNot
    rw [runs, hLog, History.entriesOf_snoc_of_ne]
    · rfl
    · intro hTxn
      cases hTxn
      exact hNot ⟨rfl, rfl⟩
  have hPrefix : sys.log <+: sys'.log := hLog ▸ List.prefix_append _ _
  refine ⟨?_, fun j m q hq => ?_, fun j m => ?_, fun j => ?_, fun o ho => ?_, hSys' ▸ h.kept⟩
  · rw [hLog, show sys'.host.store = host.store by rw [← hSys']; rfl]
    exact h.chain.snoc rfl
  · rw [hWire] at hq
    split at hq
    · rename_i hAt
      cases hq
      rw [hAt.1, hAt.2, hHere]
      exact .answered rfl hHonest hRan ⟨rfl, now, hLua⟩
    · rename_i hNot
      rw [hElse j m hNot]
      exact h.served j m q hq
  · by_cases hAt : j = i ∧ m = n
    · rw [hAt.1, hAt.2, hHere]
      exact Nat.le_refl 1
    · rw [hElse j m hAt]
      exact h.once j m
  · refine (h.session j).mono (congrFun hSessions j) hPrefix (fun m hm => ?_) fun m q hq => ?_
    · have hNot : ¬ (j = i ∧ m = n) := by
        rintro ⟨rfl, rfl⟩
        rw [hp] at hm
        cases hm
      rw [hWire, if_neg hNot]
      exact ⟨hm, hElse j m hNot⟩
    · rw [hWire] at hq
      split at hq
      · rename_i hAt
        cases hq
        exact ⟨p, hAt.1 ▸ hAt.2 ▸ hp, rfl, rfl⟩
      · exact ⟨q, hq, rfl, rfl⟩
  · rw [← hSys'] at ho
    refine (h.finished o ho).mono (by rw [hSessions]) hPrefix fun hClosed => ?_
    have hNot : ¬ (o.session = i ∧ o.number = n) := by
      rintro ⟨hi, hn⟩
      have hSome := hClosed p (hi ▸ hn ▸ hp)
      rw [hAnswer] at hSome
      cases hSome
    refine ⟨fun q hq => ?_, hElse _ _ hNot⟩
    rw [hWire, if_neg hNot] at hq
    exact hClosed q hq

theorem Inv.takeEval {now : Nat} {verdict : Option Bytes}
    (hAct : sys.takeEval i n now verdict = some sys') : sys'.Inv ks old := by
  unfold FlushSystem.takeEval at hAct
  split at hAct
  · cases hAct
  · rename_i p hp
    split at hAct
    · cases hAct
    · rename_i hEnabled
      have hAnswer : p.answer = none := by
        simp only [Bool.or_eq_true, not_or, Bool.not_eq_true, Option.isSome_eq_false_iff,
          Option.isNone_iff_eq_none] at hEnabled
        exact hEnabled.2
      have hRuns : sys.runs i n = [] := (h.served i n p hp).unrun fun a ha => by
        rw [hAnswer] at ha
        cases ha
      have hHonest := sys.host.evalsha_honest now p.KEYS p.ARGV verdict
      rcases sys.host.evalsha_cases now p.KEYS p.ARGV verdict with ⟨hRan, hHost⟩ | ⟨e, hRan, hLua⟩
      · simp only [hRan, hHost, Option.map_none, Option.toList_none, List.append_nil,
          Option.some.injEq] at hAct
        subst hAct
        refine h.movePacket hp ⟨fun a ha => ?_, fun _ => hRuns, fun a e ha he => ?_⟩ rfl rfl
          fun _ => rfl
        · cases ha
          exact hHonest
        · cases ha
          rw [hRan] at he
          cases he
      · simp only [hRan, Option.map_some, Option.toList_some, Option.some.injEq] at hAct
        subst hAct
        exact h.ran hp hAnswer hHonest hRan hLua

theorem Inv.lose (hAct : sys.lose i n = some sys') :
    sys'.Inv ks old := by
  unfold FlushSystem.lose at hAct
  split at hAct
  · cases hAct
  · split at hAct
    · cases hAct
    · cases hAct
      exact h.setWire (fun q hq => by cases hq) (fun hNot => absurd rfl hNot)
        (fun _ q hq => by cases hq) fun _ _ q hq => by cases hq

theorem Inv.client (store : Keyspace) :
    FlushSystem.Inv ks old { sys with
      host := { sys.host with store := store }
      log := sys.log ++ [⟨.client, none, sys.host.store, store⟩] } := by
  have hRuns : ∀ j m, History.entriesOf (.flush j m)
      (sys.log ++ [⟨.client, none, sys.host.store, store⟩]) = sys.runs j m := fun j m =>
    History.entriesOf_snoc_of_ne (by simp)
  refine ⟨h.chain.snoc rfl, fun j m p hp => ?_, fun j m => ?_, fun j => ?_, fun o ho => ?_,
    h.kept⟩
  · rw [runs, hRuns]
    exact h.served j m p hp
  · rw [runs, hRuns]
    exact h.once j m
  · exact (h.session j).mono rfl (List.prefix_append _ _) (fun m hm => ⟨hm, hRuns j m⟩)
      fun m p hp => ⟨p, hp, rfl, rfl⟩
  · exact (h.finished o ho).mono (Nat.le_refl _) (List.prefix_append _ _)
      fun hClosed => ⟨hClosed, hRuns _ _⟩

/-! ## The answers -/

theorem Inv.readLoad (hAct : sys.readLoad i pending = some sys') : sys'.Inv ks old := by
  unfold FlushSystem.readLoad at hAct
  split at hAct
  · cases hAct
  · rename_i f p hWaiting
    obtain ⟨hf, hp, -⟩ := waiting_eq_some hWaiting
    split at hAct
    · cases hAct
      exact h.raised hf (.inr (.inl ⟨by simp, rfl⟩)) pending
    · cases hAct
      have hServed := h.served _ _ p hp
      exact h.movePacket hp ⟨hServed.honest, hServed.unrun, hServed.ran⟩ rfl rfl id
    · cases hAct

theorem Inv.fault {e : LowerError} (hAct : sys.fault i e pending = some sys') :
    sys'.Inv ks old := by
  unfold FlushSystem.fault at hAct
  split at hAct
  · cases hAct
  · rename_i f hf
    split at hAct
    · cases hAct
      exact h.raised hf (.inl ⟨rfl, by simp [SqlError.SaysNoChanges, LowerError.error]⟩) pending
    · cases hAct

theorem Inv.applied {n : Lua.Num} (hf : (sys.sessions i).flushing = some f)
    (hp : sys.wire i (sys.sessions i).number = some p) (ha : p.answer = some a)
    (hRan : a.ran = some (.ok n)) (pending : Bool) :
    (sys.conclude i f pending (.ok ())).Inv ks old := by
  have hOk := (h.session i).flushing f hf
  obtain ⟨entry, hRuns, hRunAs⟩ := (h.served _ _ p hp).ran a _ ha hRan
  have hMem : entry ∈ sys.runs i (sys.sessions i).number := by simp [hRuns]
  obtain ⟨hLog, hTxn⟩ := History.mem_entriesOf.mp hMem
  refine h.finish hOk.nest hOk.begun ⟨fun _ => ⟨fun q hq => ?_, .inr ⟨hOk.live, entry, ?_⟩⟩, ?_⟩
  · cases hp.symm.trans hq
    simp [ha]
  · refine ⟨hRuns, fun hEarly => hOk.late entry hEarly hTxn, ?_, p, n, hOk.encoded p hp, hRunAs⟩
    simpa [ending] using hLog
  · intro r hr
    cases hr

/-- An answered packet of a program that did not write excuses any error. -/
theorem Inv.excuses_of_not_wrote (hp : sys.wire i (sys.sessions i).number = some p)
    (ha : p.answer = some a) (hNot : ∀ e, a.ran = some e → ¬ e.Wrote) (r : Raised) :
    sys.Excuses i r := by
  have hServed := h.served _ _ p hp
  refine .inr (.inr ⟨fun q hq => ?_, fun entry hEntry => ?_⟩)
  · cases hp.symm.trans hq
    simp [ha]
  · cases hRan : a.ran with
    | none =>
      rw [hServed.unrun fun b hb => by cases ha.symm.trans hb; exact hRan] at hEntry
      cases hEntry
    | some e =>
      obtain ⟨entry', hRuns, -, now, hLua⟩ := hServed.ran a e ha hRan
      rw [hRuns, List.mem_singleton] at hEntry
      subst hEntry
      exact runLua_of_not_wrote hLua (hNot e hRan)

theorem Inv.retry (hf : (sys.sessions i).flushing = some f)
    (hp : sys.wire i (sys.sessions i).number = some p) (ha : p.answer = some a)
    (hRan : a.ran = none) (loop : Loop) :
    ((sys.setWire i (sys.sessions i).number none).setSession i { sys.sessions i with
      flushing := some { f with loop := loop, sent := false } }).Inv ks old := by
  have hOk := (h.session i).flushing f hf
  have hRuns : sys.runs i (sys.sessions i).number = [] := by
    refine (h.served _ _ p hp).unrun fun b hb => ?_
    cases ha.symm.trans hb
    exact hRan
  have hDrop : (sys.setWire i (sys.sessions i).number none).Inv ks old :=
    h.setWire (fun q hq => by cases hq) (fun hNot => absurd rfl hNot)
      (fun _ q hq => by cases hq) fun _ _ q hq => by cases hq
  have hNone : (sys.setWire i (sys.sessions i).number none).wire i (sys.sessions i).number =
      none := by
    rw [setWire_wire, if_pos ⟨rfl, rfl⟩]
  refine hDrop.setFlushing (f := { f with loop := loop, sent := false })
    ⟨hOk.nest, hOk.live, hOk.begun, hOk.late, fun q hq => ?_⟩ fun _ => ⟨hNone, hRuns⟩
  cases hNone.symm.trans hq

theorem Inv.actOn (hWaiting : sys.waiting i = some (f, p)) (ha : p.answer = some a) {nplans : Nat}
    {outcome : Except Raised FlushOutcome} (hRead : a.Read nplans outcome) (pending : Bool) :
    (sys.actOn i f pending outcome).Inv ks old := by
  obtain ⟨hf, hp, -⟩ := waiting_eq_some hWaiting
  cases hRead with
  | applied n hRan => exact h.applied hf hp ha hRan pending
  | retry o ho hRan =>
    simp only [FlushSystem.actOn]
    rcases Loop.after_retry f.maxRetries f.loop ho with ⟨r, hAfter⟩ | ⟨loop, hAfter⟩
    · rw [hAfter]
      refine h.raised hf (h.excuses_of_not_wrote hp ha (fun e he => ?_) r) pending
      rw [hRan] at he
      cases he
    · rw [hAfter]
      exact h.retry hf hp ha hRan loop
  | unknown e hSays => exact h.raised hf (.inl ⟨rfl, hSays⟩) pending
  | clean e hNot => exact h.raised hf (h.excuses_of_not_wrote hp ha hNot _) pending

theorem Inv.readEval (hAct : sys.readEval i pending = some sys') : sys'.Inv ks old := by
  unfold FlushSystem.readEval at hAct
  split at hAct
  · cases hAct
  · rename_i f p hWaiting
    obtain ⟨-, hp, -⟩ := waiting_eq_some hWaiting
    have hHonest := (h.served _ _ p hp).honest
    dsimp only at hAct
    split at hAct
    · rename_i a _ ha
      cases hAct
      exact h.actOn hWaiting ha ((hHonest a ha).read _) pending
    · rename_i a _ ha
      cases hAct
      exact h.actOn hWaiting ha ((hHonest a ha).read _) pending
    · cases hAct

/-! ## Every run -/

theorem Inv.sql {e : SqlEvent} {t : Tracked}
    (hIdle : (sys.sessions i).flushing = none)
    (hStep : Tracked.step e (sys.sessions i).tracked = .ok t) :
    (sys.setSession i { sys.sessions i with tracked := t }).Inv ks old := by
  have hi := h.session i
  have hSession : (sys.setSession i { sys.sessions i with tracked := t }).sessions i =
      { sys.sessions i with tracked := t } := Function.update_self _ _ _
  refine h.setSession (Nat.le_refl _) ⟨?_, fun n hn => ?_, fun f hf => ?_⟩
  · obtain ⟨t', hStep', ht'⟩ := hi.tracks.step e
    rw [hSession]
    cases hStep.symm.trans hStep'
    exact ht'
  · rw [hSession] at hn
    exact hi.ahead n hn
  · rw [hSession] at hf
    cases hIdle.symm.trans hf

theorem Inv.act {a : FlushAct ι} (hAct : sys.act a = some sys') :
    sys'.Inv ks old := by
  cases a with
  | sql i e =>
    simp only [FlushSystem.act] at hAct
    split at hAct
    · cases hAct
    · rename_i hIdle
      cases hStep : Tracked.step e (sys.sessions i).tracked with
      | error r => simp [hStep, Except.toOption] at hAct
      | ok t =>
        rw [hStep] at hAct
        cases hAct
        exact h.sql (by simpa using hIdle) hStep
  | commit i maxRetries scriptLoaded acquire => exact h.beginCommit hAct
  | queue i fault pending => exact h.queue hAct
  | load i n verdict => exact h.takeLoad hAct
  | eval i n now verdict => exact h.takeEval hAct
  | readLoad i pending => exact h.readLoad hAct
  | readEval i pending => exact h.readEval hAct
  | fault i e pending => exact h.fault hAct
  | lose i n => exact h.lose hAct
  | client ks =>
    cases hAct
    exact h.client ks
  | script cached =>
    cases hAct
    exact h.setHost rfl

theorem Inv.run (acts : List (FlushAct ι)) :
    (sys.run acts).Inv ks old := by
  induction acts generalizing sys with
  | nil => exact h
  | cons a acts ih =>
    refine ih ?_
    unfold FlushSystem.step
    cases hAct : sys.act a with
    | none => exact h
    | some sys' => exact h.act hAct

end FlushSystem

/-! ## Results -/

/-- In every run, however the sessions, the server and the network interleave, no
flush has had its program run twice, and the store is what the logged runs and the
other clients made of it one after another. -/
theorem flush_program_runs_once (host : ScriptHost) (acts : List (FlushAct ι)) :
    let sys := (FlushSystem.start ι host).run acts
    History.Chain host.store sys.log sys.host.store ∧ ∀ i n, (sys.runs i n).length ≤ 1 :=
  have h := (FlushSystem.Inv.start (ι := ι) host).run acts
  ⟨h.chain, h.once⟩

/-- In every run, a COMMIT that returned either had nothing to write and ran nothing,
or is one entry of the log, made after it began and before it returned. The entry is the
ledger's program, and for a transaction whose order cannot matter it is what its
statements wrote, in their order, on the store as the entry found it. -/
theorem commit_is_one_step (hLua : Lua.Decimals) (host : ScriptHost) (acts : List (FlushAct ι)) :
    let sys := (FlushSystem.start ι host).run acts
    ∀ o ∈ sys.finished, o.outcome = .ok () →
      (o.tracked.liveOps = [] ∧ sys.runs o.session o.number = []) ∨
      ∃ k entry, o.begun ≤ k ∧ k < o.ended ∧ sys.log[k]? = some entry ∧
        sys.runs o.session o.number = [entry] ∧
        (o.tracked.backend.buffer.ledger.FitsWire → ∃ now m,
          runProgram now o.tracked.backend.buffer.ledger.plans entry.before =
            (.ok m, entry.after) ∧
          (PlainTransaction o.tracked.liveOps →
            execOps now o.tracked.liveOps entry.before = .ok entry.after)) := by
  intro sys o ho hOk
  have hSettled := ((FlushSystem.Inv.start (ι := ι) host).run acts).finished o ho
  rcases (hSettled.backed.ok hOk).2 with ⟨hLive, hRuns⟩ | ⟨-, entry, hApplied⟩
  · exact .inl ⟨hSettled.tracks.nlive_eq_zero hLive, hRuns⟩
  · obtain ⟨k, hk⟩ := List.mem_iff_getElem?.mp hApplied.early
    rw [List.getElem?_take, Option.ite_none_right_eq_some] at hk
    obtain ⟨hk, hAt⟩ := hk
    refine .inr ⟨k, entry, ?_, hk, hAt, hApplied.runs, fun hFits => ?_⟩
    · by_contra hLate
      refine hApplied.late (List.mem_iff_getElem?.mpr ⟨k, ?_⟩)
      rw [List.getElem?_take, if_pos (by omega)]
      exact hAt
    · obtain ⟨p, n, hEncode, hRun⟩ := hApplied.program
      obtain ⟨now, m, hProgram⟩ := hRun.program hLua hFits hEncode
      exact ⟨now, m, hProgram, fun hPlain => hSettled.tracks.execOps_live hPlain hProgram⟩

/-- In every run, once a COMMIT has raised an error that says that nothing was written,
nothing that its flush sent changes the store any more, and nothing has. The one
exception is the error for a `SCRIPT LOAD` that the server refused. -/
theorem no_changes_is_final (host : ScriptHost) (acts later : List (FlushAct ι)) {o : Over ι}
    (ho : o ∈ ((FlushSystem.start ι host).run acts).finished) {r : Report}
    (hRaised : o.outcome = .error r) (hSays : r.SaysNoChanges)
    (hMessage : r.error.message ≠ .notLoaded) :
    ∀ entry ∈ (((FlushSystem.start ι host).run acts).run later).runs o.session o.number,
      entry.after = entry.before := by
  have hInv := (FlushSystem.Inv.start (ι := ι) host).run acts
  -- The same invariant from here on, which keeps what is over now.
  have hLater := FlushSystem.Inv.run { hInv with kept := List.Subset.refl _ } later
  have hSettled := hLater.finished o (hLater.kept ho)
  exact (hSettled.backed.clean r hRaised hSays hMessage).2

end Invariant

/-- Two sessions insert one key. The server has forgotten the program of the first, which
goes round again and is first all the same. -/
def commitRace : List (FlushAct Bool) :=
  [.sql true (.bind ⟨1, 2, 0⟩ 10 1000),
   .sql true (.write ⟨1, 2, 0⟩ (some (insertString [0x61] [0x31] 1)) 8),
   .sql false (.bind ⟨1, 2, 0⟩ 10 1000),
   .sql false (.write ⟨1, 2, 0⟩ (some (insertString [0x61] [0x32] 1)) 8),
   .commit true 3 true none, .queue true none false, .eval true 0 4 none, .readEval true false,
   .queue true none false, .commit false 0 false none, .queue false none false,
   .load true 0 none, .eval true 0 5 none, .load false 0 none, .eval false 0 6 none,
   .readLoad false false, .readEval false false, .readLoad true false, .readEval true false]

/-- The system after it. -/
def raced : @FlushSystem plainLua Bool :=
  letI := plainLua; letI := integerScores
  (FlushSystem.start Bool ⟨fun _ => none, false⟩).run commitRace

theorem raced_finished : (@FlushSystem.finished plainLua Bool raced).map (fun o => (o.session,
      o.number, o.outcome, o.tracked.liveOps, o.tracked.backend.buffer.ledger.plans)) =
    [(false, 0, .error ⟨errorSentinel .conflict, .noChanges⟩, [insertString [0x61] [0x32] 1],
        [⟨[0x61], .string, .keyAbsent, .created, [.typeOk, .keyAbsent], [.set [0x32]], [1]⟩]),
      (true, 0, .ok (), [insertString [0x61] [0x31] 1],
        [⟨[0x61], .string, .keyAbsent, .created, [.typeOk, .keyAbsent], [.set [0x31]], [1]⟩])] :=
  rfl

theorem commit_is_one_step_raced : letI := plainLua; letI := integerScores
    ∃ o ∈ raced.finished, o.outcome = .ok () ∧ ∃ entry, raced.runs o.session o.number = [entry] ∧
      ∃ now, execOps now o.tracked.liveOps entry.before = .ok entry.after := by
  let _ := plainLua
  let _ := integerScores
  obtain ⟨o, ho, hProj⟩ :=
    List.mem_map.mp (raced_finished ▸ List.mem_cons_of_mem _ List.mem_cons_self)
  simp only [Prod.mk.injEq] at hProj
  obtain ⟨-, -, hOk, hOps, hPlans⟩ := hProj
  have hFits : o.tracked.backend.buffer.ledger.FitsWire := by
    refine ⟨⟨?_, ?_, ?_⟩, ?_⟩
    all_goals rw [hPlans]
    · decide
    · decide
    · decide
    · simp
  have hPlain : PlainTransaction o.tracked.liveOps := by
    rw [hOps]
    exact plain_of_stringWrites (by decide)
  rcases @commit_is_one_step plainLua integerScores Bool _ plainLua_decimals
    ⟨fun _ => none, false⟩ commitRace o ho hOk with ⟨hNone, -⟩ | ⟨k, entry, -, -, -, hRuns, hRun⟩
  · simp [hOps] at hNone
  · obtain ⟨now, m, -, hExec⟩ := hRun hFits
    exact ⟨o, ho, hOk, entry, hRuns, now, hExec hPlain⟩

/-- The session that lost the race ran its program, and is told that it wrote nothing.
That stays true when the other session's key is gone. -/
theorem no_changes_is_final_raced : letI := plainLua; letI := integerScores
    ∃ o ∈ raced.finished, (∃ r, o.outcome = .error r ∧ r.SaysNoChanges) ∧
      (raced.runs o.session o.number).length = 1 ∧
      ∀ entry ∈ (raced.run [.client fun _ => none]).runs o.session o.number,
        entry.after = entry.before := by
  let _ := plainLua
  let _ := integerScores
  obtain ⟨o, ho, hProj⟩ := List.mem_map.mp (raced_finished ▸ List.mem_cons_self)
  simp only [Prod.mk.injEq] at hProj
  obtain ⟨hSession, hNumber, hRaised, -, -⟩ := hProj
  refine ⟨o, ho, ⟨_, hRaised, .inr rfl⟩, ?_, ?_⟩
  · rw [hSession, hNumber]
    rfl
  · exact @no_changes_is_final plainLua integerScores Bool _ ⟨fun _ => none, false⟩ commitRace
      [.client fun _ => none] o ho _ hRaised (.inr rfl) (by decide)

end ValkeyFdw
