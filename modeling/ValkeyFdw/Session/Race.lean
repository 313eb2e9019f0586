import ValkeyFdw.Safety.Keyset
import ValkeyFdw.Session.Serial

/-!
# An UPDATE that races another commit

One session reads a row and updates it; before it commits, another one commits
a change of that row. Phase 1 looks at the types of keys and at the presence of
keys, fields, members and elements, never at a value. `Finds` says what an operation
relies on, and `Unnoticed` that nothing it looks at has changed since the row was read.
The later commit is refused and writes nothing exactly when it does not find what it
relies on, or the server cannot take its first command (`update_race_loses_iff`); a
change of values alone is overwritten (`UpdateRace.not_loses`).
-/

namespace ValkeyFdw

open Server Trace

/-! ## What phase 1 can see -/

/-- The operation, folded after `L`, finds what it relies on. -/
structure Finds (ks : Keyspace) (L : Ledger) (op : WriteOp) : Prop extends NoteOk ks L op where
  type : ∀ n ∈ op.names, HoldsType op.tabletype.valueType (ks n)

/-- The fields and members of the operation whose presence is looked at. -/
def WriteOp.subs (op : WriteOp) : List Bytes :=
  if op.deletesKey ∨ op.packedShape then []
  else match op.tabletype with
    | .hash => op.fields.map WriteArg.name
    | .set | .zset => op.member.toList.map fun m => op.oldmember.getD m
    | .string | .list | .vector => []

/-- Nothing that the operation, folded after `L`, looks at tells the keyspaces apart. -/
structure Unnoticed (ks ks' : Keyspace) (L : Ledger) (op : WriteOp) : Prop where
  type : ∀ n ∈ op.names, HoldsType op.tabletype.valueType (ks' n) ↔
    HoldsType op.tabletype.valueType (ks n)
  /-- A key that the transaction has not touched before is there or not. -/
  key : L.plan? op.key = none → (ks' op.key).isSome = (ks op.key).isSome
  source : ∀ old, op.isRename = true → op.oldkey = some old → L.plan? old = none →
    (ks' old).isSome = (ks old).isSome
  /-- So is a field or member, of a key that the transaction has not created. -/
  sub : ∀ x ∈ op.subs, L.members op.key x = none → (L.startPlan op).state ≠ .created →
    holdsSub (ks' op.key) x = holdsSub (ks op.key) x
  /-- The list has or has not an element left for a DELETE that takes none of the
  transaction's own. -/
  element : op.tabletype = .list → op.packedShape = false → op.kind = .delete → ∀ x ∈ op.member,
    ((L.members op.key x).getD {}).count = 0 →
      (((L.members op.key x).getD {}).presentRemovals < occurrences (ks' op.key) x ↔
        ((L.members op.key x).getD {}).presentRemovals < occurrences (ks op.key) x)

section Presence

variable {ks ks' : Keyspace} {op : WriteOp} {state : KeyState} {members : Members} {x : Bytes}

theorem WriteOp.mark_eq_none {sub : Bytes} {b : Bool} :
    op.mark members sub b op.key x = none ↔ x ≠ sub ∧ members op.key x = none := by
  unfold WriteOp.mark Members.enter
  rw [Function.update_self]
  by_cases hx : x = sub
  · simp [hx]
  · simp [hx]

theorem FieldsOk.held {fs : List WriteArg} (h : FieldsOk ks op state fs members)
    (hx : x ∈ fs.map WriteArg.name) (hNone : members op.key x = none) (hState : state ≠ .created) :
    op.kind = .insert ↔ ¬holdsSub (ks op.key) x = true := by
  induction fs generalizing members with
  | nil => cases hx
  | cons f fs ih =>
    obtain ⟨hHead, hRest⟩ := h
    by_cases hf : x = f.name
    · subst hf
      rw [hNone] at hHead
      exact hHead hState
    · have hx : x ∈ fs.map WriteArg.name := by simpa [hf] using hx
      exact ih hRest hx (WriteOp.mark_eq_none.mpr ⟨hf, hNone⟩)

theorem SubOk.congr {entry : Option MemberEntry} {kind : OpKind} {held held' : Prop}
    (h : SubOk state entry kind held)
    (hSame : entry = none → state ≠ .created → (held' ↔ held)) : SubOk state entry kind held' := by
  cases entry with
  | some m => exact h
  | none =>
    intro hState
    rw [hSame rfl hState]
    exact h hState

theorem FieldsOk.congr {fs : List WriteArg} (h : FieldsOk ks op state fs members)
    (hSame : ∀ x ∈ fs.map WriteArg.name, members op.key x = none → state ≠ .created →
      holdsSub (ks' op.key) x = holdsSub (ks op.key) x) : FieldsOk ks' op state fs members := by
  induction fs generalizing members with
  | nil => trivial
  | cons f fs ih =>
    obtain ⟨hHead, hRest⟩ := h
    rw [List.map_cons, List.forall_mem_cons] at hSame
    refine ⟨hHead.congr fun hNone hState => by rw [hSame.1 hNone hState], ih hRest ?_⟩
    intro x hx hNone
    exact hSame.2 x hx (WriteOp.mark_eq_none.mp hNone).2

variable {L : Ledger}

/-- The first mention of a field or member asks whether it is there. -/
theorem WriteOk.held (h : WriteOk ks op (L.startPlan op).state L.members) (hx : x ∈ op.subs)
    (hNone : L.members op.key x = none) (hState : (L.startPlan op).state ≠ .created) :
    op.kind = .insert ↔ ¬holdsSub (ks op.key) x = true := by
  unfold WriteOp.subs at hx
  split_ifs at hx with hPlain
  · cases hx
  · rw [not_or, Bool.not_eq_true, Bool.not_eq_true] at hPlain
    have hWrite := h hPlain.1 hPlain.2
    cases hType : op.tabletype with
    | hash =>
      rw [hType] at hWrite hx
      exact FieldsOk.held hWrite hx hNone hState
    | set | zset =>
      rw [hType] at hWrite hx
      obtain ⟨m, hm, rfl⟩ := List.mem_map.mp hx
      have hSub := hWrite m (Option.mem_toList.mp hm)
      rw [hNone] at hSub
      exact hSub hState
    | string | list | vector => simp [hType] at hx

/-- A DELETE that takes none of the transaction's own elements asks for one that is left. -/
theorem WriteOk.element (h : WriteOk ks op (L.startPlan op).state L.members)
    (hType : op.tabletype = .list) (hPacked : op.packedShape = false) (hKind : op.kind = .delete)
    (hx : x ∈ op.member) (hCount : ((L.members op.key x).getD {}).count = 0) :
    ((L.members op.key x).getD {}).presentRemovals < occurrences (ks op.key) x := by
  have hWrite := h (by simp [WriteOp.deletesKey, hType, hPacked]) hPacked
  rw [hType] at hWrite
  exact (hWrite x hx hKind).resolve_left (by omega)

theorem Unnoticed.writeOk (hSame : Unnoticed ks ks' L op)
    (h : WriteOk ks op (L.startPlan op).state L.members) :
    WriteOk ks' op (L.startPlan op).state L.members := by
  intro hDel hPacked
  have hWrite := h hDel hPacked
  have hSub := hSame.sub
  rw [WriteOp.subs, if_neg (by simp [hDel, hPacked])] at hSub
  cases hType : op.tabletype with
  | string | vector => trivial
  | hash =>
    rw [hType] at hWrite hSub
    exact FieldsOk.congr hWrite hSub
  | set | zset =>
    rw [hType] at hWrite hSub
    intro m hm
    refine (hWrite m hm).congr fun hNone hState => ?_
    rw [hSub _ (List.mem_map_of_mem (Option.mem_toList.mpr hm)) hNone hState]
  | list =>
    intro x hx hKind
    rcases Nat.eq_zero_or_pos ((L.members op.key x).getD {}).count with hCount | hCount
    · exact .inr ((hSame.element hType hPacked hKind x hx hCount).mpr
        (h.element hType hPacked hKind hx hCount))
    · exact .inl hCount

/-- An operation that finds what it relies on finds it in another keyspace just where
nothing that it looks at has changed. -/
theorem Finds.iff_unnoticed (h : Finds ks L op) : Finds ks' L op ↔ Unnoticed ks ks' L op := by
  constructor
  · intro h'
    refine ⟨fun n hn => iff_of_true (h'.type n hn) (h.type n hn), fun hNone => ?_,
      fun old hRen hOld hNone => ?_, fun x hx hNone hState => ?_,
      fun hType hPacked hKind x hx hCount => ?_⟩
    · by_cases hCreates : op.kind = .insert ∨ op.isRename = true
      · rw [(h'.target hNone).1 hCreates, (h.target hNone).1 hCreates]
      · rw [(h'.target hNone).2 hCreates, (h.target hNone).2 hCreates]
    · rw [h'.source old hRen hOld hNone, h.source old hRen hOld hNone]
    · have hBoth := (h'.write.held hx hNone hState).symm.trans (h.write.held hx hNone hState)
      exact Bool.eq_iff_iff.mpr (not_iff_not.mp hBoth)
    · exact iff_of_true (h'.write.element hType hPacked hKind hx hCount)
        (h.write.element hType hPacked hKind hx hCount)
  · intro hSame
    refine ⟨⟨fun hNone => ⟨fun hCreates => ?_, fun hCreates => ?_⟩, fun old hRen hOld hNone => ?_,
      h.duplicate, hSame.writeOk h.write⟩, fun n hn => (hSame.type n hn).mpr (h.type n hn)⟩
    · have hKey := hSame.key hNone
      rw [(h.target hNone).1 hCreates] at hKey
      simpa using hKey
    · rw [hSame.key hNone]
      exact (h.target hNone).2 hCreates
    · rw [hSame.source old hRen hOld hNone]
      exact h.source old hRen hOld hNone

/-- Two keyspaces differ in values only: the same keys of the same types, with the
same fields, members and numbers of equal elements. -/
structure SamePresence (ks ks' : Keyspace) : Prop where
  type : ∀ k t, HoldsType t (ks' k) ↔ HoldsType t (ks k)
  key : ∀ k, (ks' k).isSome = (ks k).isSome
  held : ∀ k x, holdsSub (ks' k) x = holdsSub (ks k) x
  count : ∀ k x, occurrences (ks' k) x = occurrences (ks k) x

theorem SamePresence.unnoticed (h : SamePresence ks ks') (L : Ledger) (op : WriteOp) :
    Unnoticed ks ks' L op where
  type n _ := h.type n _
  key _ := h.key _
  source old _ _ _ := h.key old
  sub x _ _ _ := h.held _ x
  element _ _ _ x _ _ := by rw [h.count]

end Presence

/-! ## The first phase, operation by operation -/

section Phase

variable {ks : Keyspace} {ops rest : List WriteOp} {L L' : Ledger}

/-- Operations that share a name are on tables of one type. -/
def SameTables (ops : List WriteOp) : Prop :=
  ∀ op ∈ ops, ∀ o ∈ ops, ∀ n ∈ op.names, n ∈ o.names → o.tabletype = op.tabletype

instance (ops : List WriteOp) : Decidable (SameTables ops) :=
  inferInstanceAs (Decidable (∀ op ∈ ops, ∀ o ∈ ops, ∀ n ∈ op.names, n ∈ o.names →
    o.tabletype = op.tabletype))

theorem SameTables.entry_type (hTables : SameTables ops) (hL : L.From ops) {op : WriteOp}
    (hOp : op ∈ ops) {n : Bytes} (hn : n ∈ op.names) :
    (L.entry n op.tabletype).ttype = op.tabletype := by
  obtain ⟨o, ho, hno, hType⟩ := hL.entry_type hOp hn
  rw [hType, hTables op hOp o ho n hn hno]

theorem SameTables.note_passes (hTables : SameTables ops) (hL : L.From ops) {op : WriteOp}
    (hOp : op ∈ ops) (hSupported : op.Supported) (hNote : note op L = .ok L') :
    L'.Passes ks ↔ L.Passes ks ∧ Finds ks L op := by
  have hIff := fun hType => note_passes_iff ks L hSupported
    (hTables.entry_type hL hOp List.mem_cons_self) hType
  constructor
  · intro hPass
    have hType : ∀ n ∈ op.names, HoldsType op.tabletype.valueType (ks n) := by
      intro n hn
      obtain ⟨plan, hStep⟩ := note_spec hNote
      rcases WriteOp.mem_names hn with rfl | ⟨hRen, hOld⟩
      · have hOwn := (hPass _ _ hStep.plan_key).1
        rwa [hStep.plan_extends.ttype, hTables.entry_type hL hOp hn] at hOwn
      · have hOwn := (hPass _ _ (hStep.plan_old hRen hOld)).1
        rwa [(L.sourcePlan_extends op n).ttype, hTables.entry_type hL hOp hn] at hOwn
    obtain ⟨hBefore, hOk⟩ := (hIff hType).mp ⟨L', hNote, hPass⟩
    exact ⟨hBefore, hOk, hType⟩
  · rintro ⟨hPass, hFinds⟩
    obtain ⟨L'', hNote', hPass'⟩ := (hIff hFinds.type).mpr ⟨hPass, hFinds.toNoteOk⟩
    rw [hNote] at hNote'
    cases hNote'
    exact hPass'

/-- The program passes phase 1 where every operation finds what it relies on. -/
theorem SameTables.passes_iff (hTables : SameTables ops) (hSupported : ∀ op ∈ ops, op.Supported)
    (hRest : ∀ op ∈ rest, op ∈ ops) (hL : L.From ops) (hFold : foldOps rest L = .ok L') :
    L'.Passes ks ↔ L.Passes ks ∧ Along note (Finds ks) rest L := by
  induction rest generalizing L with
  | nil =>
    cases hFold
    simp [Along]
  | cons op rest ih =>
    obtain ⟨L₁, hNote, hFold⟩ := foldOps_cons.mp hFold
    rw [List.forall_mem_cons] at hRest
    obtain ⟨hOp, hRest⟩ := hRest
    rw [ih hRest (hL.step hOp hNote) hFold, hTables.note_passes hL hOp (hSupported op hOp) hNote,
      and_assoc]
    refine and_congr_right fun _ => and_congr_right fun _ => ?_
    constructor
    · intro hAlong L₂ hL₂
      rw [hNote] at hL₂
      cases hL₂
      exact hAlong
    · intro hAlong
      exact hAlong L₁ hNote

end Phase

/-! ## What a program has run when it ends -/

section Ran

variable [Doubles] {now : Nat}

/-- The commands of a trace that the server has run when the first error stops it. -/
def ranActions (now : Nat) : List (Bytes × Action) → Keyspace → List (Bytes × Action)
  | [], _ => []
  | x :: rest, ks =>
    match execStep now x ks with
    | .error _ => []
    | .ok ks => x :: ranActions now rest ks

/-- The commands of phase 2 that the server has run when the program ends. -/
def programWrites (now : Nat) (plans : List Plan) (ks : Keyspace) : List (Bytes × Action) :=
  match phase1 ks 1 plans with
  | some _ => []
  | none => ranActions now (planTrace plans) ks

/-- The server cannot take the first command of the trace. -/
def FirstFails (now : Nat) (trace : List (Bytes × Action)) (ks : Keyspace) : Prop :=
  ∃ x rest e, trace = x :: rest ∧ execStep now x ks = .error e

variable {ks : Keyspace} {plans : List Plan}

theorem ranActions_eq_nil {trace : List (Bytes × Action)} :
    ranActions now trace ks = [] ↔ trace = [] ∨ FirstFails now trace ks := by
  cases trace with
  | nil => simp [ranActions]
  | cons x rest =>
    simp only [ranActions, FirstFails]
    cases hExec : execStep now x ks with
    | error e => simp [hExec]
    | ok ks₁ => simp [hExec]

theorem runProgram_isOk :
    (runProgram now plans ks).1.isOk = true ↔
      (∀ plan ∈ plans, plan.Passes ks) ∧
        ∃ ks', run (execStep now) (planTrace plans) ks = .ok ks' := by
  constructor
  · intro hOk
    rcases hRun : runProgram now plans ks with ⟨reply, ks'⟩
    rw [hRun] at hOk
    cases reply with
    | failed f => cases hOk
    | ok n =>
      obtain ⟨-, hPass, hTrace⟩ := runProgram_ok.mp hRun
      exact ⟨hPass, ks', hTrace⟩
  · rintro ⟨hPass, ks', hTrace⟩
    rw [runProgram_ok.mpr ⟨rfl, hPass, hTrace⟩]
    rfl

/-- A program is refused without having run a command exactly when one of its
plans does not pass or the server cannot take its first command. -/
theorem refused_unwritten_iff :
    ((runProgram now plans ks).1.isOk = false ∧ programWrites now plans ks = []) ↔
      (∃ plan ∈ plans, ¬plan.Passes ks) ∨ FirstFails now (planTrace plans) ks := by
  rw [← Bool.not_eq_true, runProgram_isOk, programWrites]
  cases hPhase : phase1 ks 1 plans with
  | some r =>
    have hFail : ¬∀ plan ∈ plans, plan.Passes ks := by
      rw [← phase1_eq_none (p := 1), hPhase]
      nofun
    refine iff_of_true ⟨fun h => hFail h.1, rfl⟩ (.inl ?_)
    push Not at hFail
    exact hFail
  | none =>
    have hPass := phase1_eq_none.mp hPhase
    dsimp only
    rw [ranActions_eq_nil]
    constructor
    · rintro ⟨hNot, hNil | hFirst⟩
      · refine absurd ⟨hPass, ks, ?_⟩ hNot
        rw [hNil, run_nil]
      · exact .inr hFirst
    · rintro (⟨plan, hPlan, hNot⟩ | hFirst)
      · exact absurd (hPass plan hPlan) hNot
      · refine ⟨?_, .inr hFirst⟩
        rintro ⟨-, ks', hRun⟩
        obtain ⟨x, rest, e, hTrace, hExec⟩ := hFirst
        rw [hTrace, run_cons_ok, hExec] at hRun
        obtain ⟨_, h, -⟩ := hRun
        cases h

theorem phase2_of_ran {p : Nat} (h : ranActions now (planTrace plans) ks = []) :
    (phase2 now p plans ks).2 = ks := by
  induction plans generalizing p with
  | nil => rfl
  | cons plan rest ih =>
    rw [planTrace_cons] at h
    cases hActions : plan.actions with
    | nil =>
      rw [hActions] at h
      simp only [phase2, hActions, runActions]
      exact ih h
    | cons a as =>
      rw [hActions] at h
      obtain hNil | ⟨x, rest', e, hTrace, hExec⟩ := ranActions_eq_nil.mp h
      · cases hNil
      · rw [List.map_cons, List.cons_append, List.cons.injEq] at hTrace
        rw [← hTrace.1, execStep] at hExec
        simp only [phase2, hActions, runActions, hExec]

theorem runProgram_of_no_writes (h : programWrites now plans ks = []) :
    (runProgram now plans ks).2 = ks := by
  unfold programWrites at h
  unfold runProgram
  cases hPhase : phase1 ks 1 plans with
  | some r => rfl
  | none =>
    rw [hPhase] at h
    have hKept := phase2_of_ran (p := 1) h
    dsimp only
    rcases hRun : phase2 now 1 plans ks with ⟨_ | r, ks'⟩
    · rw [hRun] at hKept
      exact hKept
    · rw [hRun] at hKept
      exact hKept

end Ran

/-! ## The race -/

section Race

variable [Doubles]

/-- The event leaves the session's transaction open. -/
def Event.Within (i : Bool) : Event Bool → Prop
  | .abort j | .commit j _ => j ≠ i
  | _ => True

/-- An interleaving of two sessions. The session `true` reads a row after the
events `before`; the session `false` then commits a change of that row; and the
transaction of `true` ends up with an UPDATE of it, which it commits at `now`. -/
structure UpdateRace where
  start : Keyspace
  before : List (Event Bool)
  between : List (Event Bool)
  firstNow : Nat
  after : List (Event Bool)
  now : Nat
  row : RowId
  present : RowPresent (((System.start Bool start).run before).store) row
  /-- It is one transaction that reads the row and updates it. -/
  within : ∀ e ∈ between ++ after, e.Within true
  /-- The commit of `false` changes the row. -/
  changes : ¬SameRow ((System.start Bool start).run (before ++ between)).store
    ((System.start Bool start).run (before ++ between ++ [.commit false firstNow])).store row
  updates : ∃ op ∈ (((System.start Bool start).run
    (before ++ between ++ [.commit false firstNow] ++ after)).sessions true).buffer,
      op.kind = .update ∧ op.oldRow = row

namespace UpdateRace

variable (R : UpdateRace)

/-- The system as `true` reads the row. -/
def reading : System Bool := (System.start Bool R.start).run R.before

/-- The system as `true` is about to commit. -/
def flushing : System Bool :=
  (System.start Bool R.start).run (R.before ++ R.between ++ [.commit false R.firstNow] ++ R.after)

/-- The operations that the commit of `true` sends. -/
def ops : List WriteOp := (R.flushing.sessions true).buffer

/-- Their plans. -/
def plans : List Plan := (R.flushing.sessions true).ledger.plans

/-- The commit of `true` is refused and nothing of it is applied. -/
structure Loses : Prop where
  refused : (runProgram R.now R.plans R.flushing.store).1.isOk = false
  unwritten : programWrites R.now R.plans R.flushing.store = []
  kept : (R.flushing.step (.commit true R.now)).store = R.flushing.store

theorem store_step : (R.flushing.step (.commit true R.now)).store =
    (runProgram R.now R.plans R.flushing.store).2 := by
  have hBuffer : (R.flushing.sessions true).buffer ≠ [] := by
    obtain ⟨op, hOp, -⟩ := R.updates
    exact List.ne_nil_of_mem hOp
  simp only [System.step, System.flush, if_neg hBuffer]
  rfl

/-- The server cannot take the first command of the operations. -/
def Stuck : Prop := FirstFails R.now ((byKey R.ops).flatMap WriteOp.commands) R.flushing.store

theorem loses_iff (hTables : SameTables R.ops) (hSupported : ∀ op ∈ R.ops, op.Supported) :
    R.Loses ↔ ¬Along note (Finds R.flushing.store) R.ops .empty ∨ R.Stuck := by
  have hFold : foldOps R.ops .empty = .ok (R.flushing.sessions true).ledger :=
    (R.flushing.sessions true).folded
  have hTrace : planTrace R.plans = (byKey R.ops).flatMap WriteOp.commands :=
    planTrace_byKey hFold (along_zsetAgrees fun op hOp o ho => hTables op hOp o ho _ List.mem_cons_self)
  have hPhase : (∃ plan ∈ R.plans, ¬plan.Passes R.flushing.store) ↔
      ¬Along note (Finds R.flushing.store) R.ops .empty := by
    have hPasses : (R.flushing.sessions true).ledger.Passes R.flushing.store ↔ _ :=
      hTables.passes_iff hSupported (fun _ h => h) (.empty _) hFold
    rw [and_iff_right (Ledger.passes_empty _), Ledger.passes_iff] at hPasses
    rw [← hPasses]
    simp only [not_forall, exists_prop]
    rfl
  rw [Stuck, ← hTrace, ← hPhase, ← refused_unwritten_iff]
  constructor
  · intro h
    exact ⟨h.refused, h.unwritten⟩
  · rintro ⟨hRefused, hWrites⟩
    refine ⟨hRefused, hWrites, ?_⟩
    rw [R.store_step, runProgram_of_no_writes hWrites]

theorem along_finds_iff (hReads : Along note (Finds R.reading.store) R.ops .empty) :
    Along note (Finds R.flushing.store) R.ops .empty ↔
      Along note (Unnoticed R.reading.store R.flushing.store) R.ops .empty := by
  rw [along_iff] at hReads
  rw [along_iff, along_iff]
  refine forall₄_congr fun pre op post L => forall₂_congr fun hSplit hFold => ?_
  exact (hReads pre op post L hSplit hFold).iff_unnoticed

/-- The update overwrites a change that left every presence alone, if it would have
been accepted without it. -/
theorem not_loses (hTables : SameTables R.ops) (hSupported : ∀ op ∈ R.ops, op.Supported)
    (hSame : SamePresence R.reading.store R.flushing.store)
    (hReads : Along note (Finds R.reading.store) R.ops .empty) (hFirst : ¬R.Stuck) :
    ¬R.Loses := by
  rw [R.loses_iff hTables hSupported, R.along_finds_iff hReads, not_or, not_not]
  exact ⟨along_iff.mpr fun _ op _ L _ _ => hSame.unnoticed L op, hFirst⟩

end UpdateRace

omit [Doubles] in
theorem members_of_untouched {pre : List WriteOp} {L : Ledger} {k : Bytes}
    (hFold : foldOps pre .empty = .ok L) (hPre : ∀ o ∈ pre, k ∉ o.names) :
    L.members k = fun _ => none := by
  refine run_frame (g := fun L : Ledger => L.members k) (fun o ho L L' hNote => ?_) hFold
  obtain ⟨plan, hStep⟩ := note_spec hNote
  rw [hStep.members_eq, record_other]
  rintro rfl
  exact hPre o ho List.mem_cons_self

omit [Doubles] in
/-- An UPDATE that is the first to touch its row, and leaves it under its key, relies on
the row. -/
theorem Finds.row_present {ks : Keyspace} {pre : List WriteOp} {op : WriteOp} {L : Ledger}
    (hFold : foldOps pre .empty = .ok L) (hPre : ∀ o ∈ pre, op.key ∉ o.names)
    (hKind : op.kind = .update) (hRen : op.isRename = false) (hList : op.tabletype ≠ .list)
    (h : Finds ks L op) : RowPresent ks op.oldRow := by
  have hNone : L.plan? op.key = none := (foldOps_plan? hFold).mpr hPre
  have hCreates : ¬(op.kind = .insert ∨ op.isRename = true) := by simp [hKind, hRen]
  have hKey := WriteOp.oldkey_getD hKind hRen
  cases hRow : op.rowMember with
  | none => simpa [RowPresent, WriteOp.oldRow, hRow, hKey] using (h.target hNone).2 hCreates
  | some m =>
    have hMember : op.byMember = true ∧ op.member = some m := by
      unfold WriteOp.rowMember at hRow
      split_ifs at hRow with hBy
      exact ⟨hBy, hRow⟩
    have hPlain : op.packedShape = false ∧ (op.tabletype = .set ∨ op.tabletype = .zset) := by
      simpa [WriteOp.byMember, hList] using hMember.1
    have hWrite := h.write (by simp [WriteOp.deletesKey, hKind]) hPlain.1
    have hState : (L.startPlan op).state ≠ .created := by
      rw [Ledger.startPlan_state, hNone]
      simp [hCreates]
    have hSub : SubOk (L.startPlan op).state (L.members op.key (op.oldmember.getD m)) op.kind
        (holdsSub (ks op.key) (op.oldmember.getD m) = true) := by
      rcases hPlain.2 with hType | hType <;>
      · rw [hType] at hWrite
        exact hWrite m hMember.2
    rw [members_of_untouched hFold hPre] at hSub
    have hHeld := hSub hState
    simpa [RowPresent, WriteOp.oldRow, hRow, hKey, hKind] using hHeld

/-- Whoever updates a row that another commit has changed is refused, and writes
nothing, exactly when one of its operations does not find what it relies on, or the
server cannot take its first command. If it would have found all of it when it read the row,
this is so exactly when the presence of something it looks at has changed since; so it
is if the row itself is gone that it is the first to touch. -/
theorem update_race_loses_iff (R : UpdateRace) (hTables : SameTables R.ops)
    (hSupported : ∀ op ∈ R.ops, op.Supported) :
    (R.Loses ↔ ¬Along note (Finds R.flushing.store) R.ops .empty ∨ R.Stuck) ∧
    (Along note (Finds R.reading.store) R.ops .empty →
      (R.Loses ↔ ¬Along note (Unnoticed R.reading.store R.flushing.store) R.ops .empty ∨
        R.Stuck)) ∧
    ∀ pre op post, R.ops = pre ++ op :: post → op.kind = .update → op.oldRow = R.row →
      op.isRename = false → op.tabletype ≠ .list → (∀ o ∈ pre, op.key ∉ o.names) →
      ¬RowPresent R.flushing.store R.row → R.Loses := by
  refine ⟨R.loses_iff hTables hSupported, fun hReads => ?_, ?_⟩
  · rw [R.loses_iff hTables hSupported, R.along_finds_iff hReads]
  · intro pre op post hSplit hKind hRow hRen hList hPre hGone
    refine (R.loses_iff hTables hSupported).mpr (.inl fun hFinds => hGone ?_)
    have hFold : foldOps R.ops .empty = .ok _ := (R.flushing.sessions true).folded
    rw [hSplit] at hFold
    obtain ⟨L, hFold, -⟩ := run_append_ok.mp hFold
    rw [← hRow]
    exact (along_iff.mp hFinds pre op post L hSplit hFold).row_present hFold hPre hKind hRen hList

end Race

/-- An UPDATE of the string row `a`. -/
def updateString (value : Bytes) : WriteOp :=
  { kind := .update, relid := 1, tabletype := .string, key := [0x61], oldkey := some [0x61],
    value := some value }

/-- One session reads the string row `a` and sets it to `2`; the other one deletes it. -/
def deleteRace : letI := integerScores
    UpdateRace :=
  letI := integerScores
  { start := Function.update (fun _ => none) [0x61] (some (.string [0x30]))
    before := []
    between := [.write false { kind := .delete, relid := 1, tabletype := .string, key := [0x61] },
      .write true (updateString [0x32])]
    firstNow := 0
    after := []
    now := 0
    row := ([0x61], none)
    present := by decide
    within := by simp [Event.Within]
    changes := by
      intro h
      cases show (none : Option Value) = some (.string [0x30]) from h
    updates := ⟨updateString [0x32], by decide, rfl, rfl⟩ }

/-- The row is gone, and the commit of its UPDATE is refused. -/
theorem update_race_loses_iff_deleteRace : letI := integerScores
    deleteRace.flushing.store [0x61] = none ∧ deleteRace.Loses := by
  refine ⟨rfl, (@update_race_loses_iff integerScores deleteRace (by decide) (by decide)).2.2
    [] _ [] rfl rfl rfl rfl ?_ ?_ ?_⟩
  · decide
  · simp
  · decide

/-- Both sessions read `0` under the key `a`; one sets it to `1` and commits, the
other sets it to `2`. -/
def valueRace : letI := integerScores
    UpdateRace :=
  letI := integerScores
  { start := Function.update (fun _ => none) [0x61] (some (.string [0x30]))
    before := []
    between := [.write false (updateString [0x31]), .write true (updateString [0x32])]
    firstNow := 0
    after := []
    now := 0
    row := ([0x61], none)
    present := by decide
    within := by simp [Event.Within]
    changes := by
      intro h
      cases show some (Value.string [0x31]) = some (.string [0x30]) from h
    updates := ⟨updateString [0x32], by decide, rfl, rfl⟩ }

/-- The second commit answers OK and replaces the value of the first. -/
theorem value_overwritten : letI := integerScores
    (valueRace.flushing.store [0x61] = some (.string [0x31]) ∧
      runProgram 0 valueRace.plans valueRace.flushing.store =
        (.ok 1, (valueRace.flushing.step (.commit true 0)).store) ∧
      (valueRace.flushing.step (.commit true 0)).store [0x61] = some (.string [0x32])) ∧
    ¬valueRace.Loses := by
  refine ⟨⟨rfl, rfl, rfl⟩, fun h => ?_⟩
  cases @UpdateRace.Loses.refused integerScores valueRace h

end ValkeyFdw
