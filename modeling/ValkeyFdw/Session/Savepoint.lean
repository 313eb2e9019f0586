import ValkeyFdw.Lib.Nest
import ValkeyFdw.Session.Buffer

/-!
# Savepoints

The write buffer across the subtransactions of a backend. Operations and the
binding of the transaction's one write unit carry the nest level they were made
at. A subtransaction that aborts takes the operations of its level off the end
of the list, drops the binding if it took it, and folds the ledger again; one
that is released lowers them to its parent's level.

Next to the buffer runs a `Nest` of what the statements of each open
subtransaction did. It is the history the buffer is checked against: every run
keeps the two in step (`Tracks.run`).
-/

namespace ValkeyFdw

open Trace

/-! ## The write unit -/

/-- The one Valkey identity a transaction's writes may address. -/
structure Identity where
  serverid : Nat
  umid : Nat
  database : Nat
deriving DecidableEq

/-- The identity that the transaction's writes are bound to, and their limits. -/
structure WriteUnit where
  bound : Bool := false
  identity : Identity := ⟨0, 0, 0⟩
  maxOps : Nat := 0
  maxBytes : Nat := 0
  /-- The nest level the binding was taken at. -/
  level : Nat := 0

def WriteUnit.binding (u : WriteUnit) : Option Identity := if u.bound then some u.identity else none

/-- The errors of a write before COMMIT. -/
inductive WriteError where
  | server
  | umid
  | database
  | unbound
  | opCap
  | byteCap
  | row
  | fold (r : Refusal)

/-! ## The buffer -/

/-- The write buffer of a backend. -/
structure WriteBuffer where
  ops : List WriteOp := []
  nlive : Nat := 0
  unit : WriteUnit := {}
  ledger : Ledger := .empty
  /-- Bytes taken from the buffer's memory context since the last reset. -/
  allocBytes : Nat := 0

namespace WriteBuffer

variable (b : WriteBuffer)

/-- Bind the transaction to one identity, or refuse a second one. -/
def bind (level : Nat) (i : Identity) (maxOps maxBytes : Nat) : Except WriteError WriteBuffer :=
  if !b.unit.bound then
    .ok { b with unit := ⟨true, i, maxOps, maxBytes, level⟩ }
  else if b.unit.identity.serverid ≠ i.serverid then .error .server
  else if b.unit.identity.umid ≠ i.umid then .error .umid
  else if b.unit.identity.database ≠ i.database then .error .database
  else .ok b

def opNew : Except WriteError Unit :=
  if !b.unit.bound then .error .unbound
  else if b.allocBytes > b.unit.maxBytes then .error .byteCap
  else .ok ()

/-- An operation is linked at the end of the list, within the limits of the unit. -/
def append (level : Nat) (op : WriteOp) : Except WriteError WriteBuffer :=
  if b.nlive + 1 > b.unit.maxOps then .error .opCap
  else if b.allocBytes > b.unit.maxBytes then .error .byteCap
  else .ok { b with ops := b.ops ++ [{ op with level := level }], nlive := b.nlive + 1 }

/-- One row of a statement: the operation it buffers. `row` is what rendering it
gives, and `bytes` what that allocates. An error leaves behind the buffer as it then
stood: a row that the ledger refuses is already linked. -/
def modify (level : Nat) (row : Option WriteOp) (bytes : Nat) :
    Except (WriteError × WriteBuffer) (WriteOp × WriteBuffer) :=
  match b.opNew with
  | .error e => .error (e, b)
  | .ok () =>
    let rendered := { b with allocBytes := b.allocBytes + bytes }
    match row with
    | none => .error (.row, rendered)
    | some op =>
      match rendered.append level op with
      | .error e => .error (e, rendered)
      | .ok linked =>
        match note { op with level := level } linked.ledger with
        | .error r => .error (.fold r, linked)
        | .ok L => .ok (op, { linked with ledger := L })

/-- Drop the binding with the subtransaction that took it. -/
def rebindAfterTruncate (level : Nat) : WriteBuffer :=
  if b.nlive = 0 && b.unit.level ≥ level then { b with unit := { b.unit with bound := false } }
  else b

/-- A subtransaction aborts: unlink its operations from the tail, then fold the
ledger again from those that are left. -/
def abortSub (level : Nat) : Except Refusal WriteBuffer :=
  let dropped := b.ops.rtakeWhile fun op => level ≤ op.level
  let truncated := { b with
    ops := b.ops.rdropWhile fun op => level ≤ op.level
    nlive := b.nlive - dropped.length }
  let rebound := truncated.rebindAfterTruncate level
  (foldOps rebound.ops .empty).map fun L => { rebound with ledger := L }

/-- A subtransaction is about to commit: its operations and its binding become its parent's. -/
def preCommitSub (level : Nat) : WriteBuffer :=
  { b with
    ops := promote level b.ops
    unit := if b.unit.bound && b.unit.level ≥ level then { b.unit with level := level - 1 }
      else b.unit }

/-- The end of the transaction. -/
def reset : WriteBuffer where
  unit := { b.unit with bound := false, level := 0 }

end WriteBuffer

/-! ## Runs -/

/-- The buffer of a backend and its transaction nest level. -/
structure Backend where
  nest : Nat := 1
  buffer : WriteBuffer := {}

/-- Abort the innermost open subtransaction, or the transaction. -/
def Backend.abort (s : Backend) : Except Refusal Backend :=
  if s.nest ≤ 1 then .ok ⟨1, s.buffer.reset⟩
  else (s.buffer.abortSub s.nest).map fun b => ⟨s.nest - 1, b⟩

/-- What a statement left in the subtransaction it ran in: that it bound its
identity, or that it buffered an operation while a binding was in force. -/
inductive Deed where
  | bound (i : Identity)
  | wrote (i : Identity) (under : Option Identity) (op : WriteOp)

/-- The identity of the statement. -/
def Deed.identity : Deed → Identity
  | .bound i => i
  | .wrote i _ _ => i

def Deed.op? : Deed → Option WriteOp
  | .bound _ => none
  | .wrote _ _ op => some op

/-- What a backend does with the buffer between two COMMITs. -/
inductive SqlEvent where
  | bind (i : Identity) (maxOps maxBytes : Nat)
  | write (i : Identity) (row : Option WriteOp) (bytes : Nat)
  | savepoint
  | release
  | rollback

/-- A backend with the deeds of its open subtransactions. -/
structure Tracked where
  backend : Backend := {}
  deeds : Nest Deed := .empty

namespace Tracked

/-- An error, or a ROLLBACK: the innermost subtransaction is gone. -/
def abort (s : Tracked) (left : WriteBuffer) : Except Refusal Tracked :=
  ({ s.backend with buffer := left } : Backend).abort.map fun t => ⟨t, s.deeds.rollback⟩

/-- A statement goes on with the buffer it has written. -/
def go (s : Tracked) (b : WriteBuffer) (d : Deed) : Tracked :=
  ⟨{ s.backend with buffer := b }, s.deeds.note d⟩

def step : SqlEvent → Tracked → Except Refusal Tracked
  | .bind i maxOps maxBytes, s =>
    match s.backend.buffer.bind s.backend.nest i maxOps maxBytes with
    | .ok b => .ok (s.go b (.bound i))
    | .error _ => s.abort s.backend.buffer
  | .write i row bytes, s =>
    match s.backend.buffer.modify s.backend.nest row bytes with
    | .ok (op, b) => .ok (s.go b (.wrote i s.backend.buffer.unit.binding op))
    | .error (_, left) => s.abort left
  | .savepoint, s => .ok ⟨{ s.backend with nest := s.backend.nest + 1 }, s.deeds.start⟩
  | .release, s =>
    -- without an open savepoint, RELEASE is an error like any other
    if s.backend.nest ≤ 1 then s.abort s.backend.buffer
    else .ok ⟨⟨s.backend.nest - 1, s.backend.buffer.preCommitSub s.backend.nest⟩, s.deeds.release⟩
  | .rollback, s => s.abort s.backend.buffer

end Tracked

/-! ## What one call does to the buffer -/

namespace WriteBuffer

variable {b c left : WriteBuffer} {level : Nat}

theorem bind_ok {i : Identity} {maxOps maxBytes : Nat} (h : b.bind level i maxOps maxBytes = .ok c) :
    (b.unit.bound = false ∧ c = { b with unit := ⟨true, i, maxOps, maxBytes, level⟩ }) ∨
      (b.unit.bound = true ∧ b.unit.identity = i ∧ c = b) := by
  unfold bind at h
  split at h
  · rename_i hBound
    cases h
    exact .inl ⟨by simpa using hBound, rfl⟩
  · rename_i hBound
    split_ifs at h with hServer hUmid hDatabase
    cases h
    refine .inr ⟨by simpa using hBound, ?_, rfl⟩
    cases i
    cases hIdentity : b.unit.identity
    simp_all

/-- A buffer that a statement leaves when it raises: at most one more operation, linked last. -/
structure LeavesBehind (b left : WriteBuffer) (level : Nat) : Prop where
  ops : ∃ extra, left.ops = b.ops ++ extra ∧ ∀ op ∈ extra, op.level = level
  nlive : left.nlive + b.ops.length = b.nlive + left.ops.length
  unit : left.unit = b.unit

theorem LeavesBehind.refl : b.LeavesBehind b level where
  ops := ⟨[], by simp⟩
  nlive := rfl
  unit := rfl

theorem append_ok {op : WriteOp} (h : b.append level op = .ok c) :
    b.nlive + 1 ≤ b.unit.maxOps ∧
      c = { b with ops := b.ops ++ [{ op with level := level }], nlive := b.nlive + 1 } := by
  unfold append at h
  split_ifs at h with hOps
  cases h
  exact ⟨by omega, rfl⟩

theorem modify_ok {row : Option WriteOp} {bytes : Nat} {op : WriteOp}
    (h : b.modify level row bytes = .ok (op, c)) :
    b.unit.bound = true ∧ b.nlive + 1 ≤ b.unit.maxOps ∧ ∃ L,
      note { op with level := level } b.ledger = .ok L ∧
      c = { b with
        ops := b.ops ++ [{ op with level := level }]
        nlive := b.nlive + 1
        ledger := L
        allocBytes := b.allocBytes + bytes } := by
  unfold modify at h
  cases hNew : b.opNew with
  | error e => simp [hNew] at h
  | ok u =>
    have hBound : b.unit.bound = true := by
      unfold opNew at hNew
      split_ifs at hNew with hb
      simpa using hb
    rw [hNew] at h
    dsimp only at h
    split at h
    · cases h
    · split at h
      · cases h
      · rename_i hAppend
        obtain ⟨hCap, rfl⟩ := append_ok hAppend
        split at h
        · cases h
        · rename_i hNote
          cases h
          exact ⟨hBound, hCap, _, hNote, rfl⟩

theorem abortSub_eq {kept : List WriteOp} {n : Nat} {L : Ledger}
    (hKept : (b.ops.rdropWhile fun op => level ≤ op.level) = kept)
    (hLive : b.nlive - (b.ops.rtakeWhile fun op => level ≤ op.level).length = n)
    (hFold : foldOps kept .empty = .ok L) :
    b.abortSub level = .ok { b with
      ops := kept
      nlive := n
      unit := if n = 0 && b.unit.level ≥ level then { b.unit with bound := false } else b.unit
      ledger := L } := by
  simp only [abortSub, rebindAfterTruncate, hKept, hLive]
  split <;> simp [hFold, Except.map]

theorem modify_error {row : Option WriteOp} {bytes : Nat} {e : WriteError}
    (h : b.modify level row bytes = .error (e, left)) : b.LeavesBehind left level := by
  unfold modify at h
  split at h
  · cases h
    exact .refl
  · dsimp only at h
    split at h
    · cases h
      exact ⟨⟨[], by simp⟩, rfl, rfl⟩
    · split at h
      · cases h
        exact ⟨⟨[], by simp⟩, rfl, rfl⟩
      · rename_i hAppend
        obtain ⟨-, rfl⟩ := append_ok hAppend
        split at h
        · cases h
          refine ⟨⟨_, rfl, by simp⟩, ?_, rfl⟩
          simp only [List.length_append, List.length_singleton]
          omega
        · cases h

end WriteBuffer

/-! ## The buffer keeps in step with the deeds -/

/-- A deed at the level of its subtransaction, as the buffer holds it. -/
def Deed.buffered (level : Nat) (d : Deed) : Option WriteOp :=
  d.op?.map fun op => { op with level := level }

theorem Deed.level_of_buffered (level : Nat) (d : Deed) (op : WriteOp)
    (h : d.buffered level = some op) : op.level = level := by
  cases d with
  | bound => cases h
  | wrote =>
    cases h
    rfl

/-- The unit is bound by the first deed that is left. -/
def WriteUnit.TakenBy (u : WriteUnit) : List (Nat × Deed) → Prop
  | [] => u.bound = false
  | x :: _ => u.bound = true ∧ x = (u.level, .bound u.identity)

/-- A deed under a binding. -/
def Deed.Under (i : Identity) : Deed → Prop
  | .bound j => j = i
  | .wrote _ under _ => under = some i

/-- The buffer is what the deeds of the open subtransactions make it. -/
structure Tracks (s : Tracked) : Prop where
  nest : s.backend.nest = s.deeds.depth
  ops : s.backend.buffer.ops = s.deeds.view fun level d => d.buffered level
  nlive : s.backend.buffer.nlive = s.backend.buffer.ops.length
  cap : s.backend.buffer.nlive ≤ s.backend.buffer.unit.maxOps
  folded : foldOps s.backend.buffer.ops .empty = .ok s.backend.buffer.ledger
  taken : s.backend.buffer.unit.TakenBy s.deeds.labelled
  under : ∀ d ∈ s.deeds.live, d.Under s.backend.buffer.unit.identity

theorem Tracks.start : Tracks {} where
  nest := rfl
  ops := rfl
  nlive := rfl
  cap := Nat.le_refl 0
  folded := rfl
  taken := rfl
  under := by simp [Nest.live, Nest.empty]

variable {s : Tracked} {left : WriteBuffer}

theorem Tracks.bound_iff (h : Tracks s) :
    s.backend.buffer.unit.bound = true ↔ s.deeds.live ≠ [] := by
  have hTaken := h.taken
  rw [← Nest.labelled_snd]
  cases hDeeds : s.deeds.labelled with
  | nil =>
    rw [hDeeds] at hTaken
    simp [show s.backend.buffer.unit.bound = false from hTaken]
  | cons x xs =>
    rw [hDeeds] at hTaken
    simp [hTaken.1]

theorem Tracks.below (h : Tracks s) (hNest : ¬ s.backend.nest ≤ 1) :
    ∃ f fs, s.deeds.below = f :: fs := by
  have hDepth := h.nest
  cases hBelow : s.deeds.below with
  | nil =>
    simp only [Nest.depth, hBelow, List.length_nil] at hDepth
    omega
  | cons f fs => exact ⟨f, fs, rfl⟩

/-- A deed done at the current level while the unit was bound. -/
theorem Tracks.note (h : Tracks s) (hBound : s.backend.buffer.unit.bound = true) {d : Deed}
    (hUnder : d.Under s.backend.buffer.unit.identity) :
    s.backend.buffer.unit.TakenBy (s.deeds.note d).labelled ∧
      ∀ d' ∈ (s.deeds.note d).live, d'.Under s.backend.buffer.unit.identity := by
  constructor
  · have hTaken := h.taken
    rw [Nest.labelled_note]
    cases hDeeds : s.deeds.labelled with
    | nil =>
      rw [hDeeds] at hTaken
      rw [show s.backend.buffer.unit.bound = false from hTaken] at hBound
      cases hBound
    | cons x xs =>
      rw [hDeeds] at hTaken
      exact hTaken
  · intro d' hd'
    rw [Nest.live_note, List.mem_append, List.mem_singleton] at hd'
    rcases hd' with hd' | rfl
    · exact h.under d' hd'
    · exact hUnder

theorem Tracks.bind (h : Tracks s) {i : Identity} {maxOps maxBytes : Nat} {b : WriteBuffer}
    (hBind : s.backend.buffer.bind s.backend.nest i maxOps maxBytes = .ok b) :
    Tracks (s.go b (.bound i)) := by
  have hView : (s.deeds.note (.bound i)).view (fun level d => d.buffered level) =
      s.deeds.view fun level d => d.buffered level := by
    rw [Nest.view_note]
    simp [Deed.buffered, Deed.op?]
  rcases WriteBuffer.bind_ok hBind with ⟨hBound, rfl⟩ | ⟨hBound, hIdentity, rfl⟩
  · -- the first binding: nothing has been done yet
    have hNone : s.deeds.live = [] := by
      by_contra hSome
      rw [h.bound_iff.mpr hSome] at hBound
      cases hBound
    have hLog : s.deeds.labelled = [] := by
      rw [← List.map_eq_nil_iff, Nest.labelled_snd]
      exact hNone
    have hOps : s.backend.buffer.ops = [] := by rw [h.ops, Nest.view, hLog, List.filterMap_nil]
    refine ⟨h.nest, h.ops.trans hView.symm, h.nlive, ?_, h.folded, ?_, ?_⟩
    · simp [Tracked.go, h.nlive, hOps]
    · rw [Tracked.go, Nest.labelled_note, hLog, ← h.nest]
      exact ⟨rfl, rfl⟩
    · intro d hd
      rw [Tracked.go, Nest.live_note, hNone, List.nil_append, List.mem_singleton] at hd
      rw [hd]
      rfl
  · obtain ⟨hTaken, hUnder⟩ := h.note hBound (show (Deed.bound i).Under _ from hIdentity.symm)
    exact ⟨h.nest, h.ops.trans hView.symm, h.nlive, h.cap, h.folded, hTaken, hUnder⟩

theorem Tracks.write (h : Tracks s) {i : Identity} {row : Option WriteOp} {bytes : Nat}
    {op : WriteOp} {b : WriteBuffer}
    (hWrite : s.backend.buffer.modify s.backend.nest row bytes = .ok (op, b)) :
    Tracks (s.go b (.wrote i s.backend.buffer.unit.binding op)) := by
  obtain ⟨hBound, hCap, L, hNote, rfl⟩ := WriteBuffer.modify_ok hWrite
  obtain ⟨hTaken, hUnder⟩ := h.note hBound
    (show (Deed.wrote i s.backend.buffer.unit.binding op).Under _ by
      simp [Deed.Under, WriteUnit.binding, hBound])
  refine ⟨h.nest, ?_, ?_, hCap, ?_, hTaken, hUnder⟩
  · simp only [Tracked.go, Nest.view_note, h.ops, ← h.nest]
    rfl
  · simp [Tracked.go, h.nlive]
  · exact run_append_ok.mpr ⟨_, h.folded, (run_singleton _ _).trans hNote⟩

theorem length_promote (level : Nat) (buffer : List WriteOp) :
    (promote level buffer).length = buffer.length := by
  rw [promote, List.length_append, List.length_map, ← List.length_append,
    List.rdropWhile_append_rtakeWhile]

theorem Tracks.release (h : Tracks s) (hNest : ¬ s.backend.nest ≤ 1) :
    Tracks ⟨⟨s.backend.nest - 1, s.backend.buffer.preCommitSub s.backend.nest⟩,
      s.deeds.release⟩ := by
  have hDepth := h.nest
  obtain ⟨f, fs, hBelow⟩ := h.below hNest
  refine ⟨?_, ?_, ?_, ?_, ?_, ?_, ?_⟩
  · simp [Nest.release, Nest.depth, hBelow, hDepth]
  · simp only [WriteBuffer.preCommitSub, promote, h.ops, hDepth]
    exact Nest.view_release WriteOp.level Deed.level_of_buffered hBelow fun d => by
      cases d <;> rfl
  · simp [WriteBuffer.preCommitSub, length_promote, h.nlive]
  · simp only [WriteBuffer.preCommitSub]
    split <;> exact h.cap
  · exact foldOps_promote _ _ h.folded
  · have hTaken := h.taken
    rw [Nest.labelled_release hBelow]
    simp only [WriteBuffer.preCommitSub]
    cases hDeeds : s.deeds.labelled with
    | nil =>
      rw [hDeeds] at hTaken
      rw [show s.backend.buffer.unit.bound = false from hTaken]
      exact hTaken
    | cons x xs =>
      rw [hDeeds] at hTaken
      obtain ⟨hBound, rfl⟩ := hTaken
      by_cases hLevel : s.backend.buffer.unit.level ≥ s.backend.nest
      · rw [if_pos (by simp [hBound, hLevel])]
        refine ⟨hBound, ?_⟩
        rw [← hDepth]
        simp only [Prod.mk.injEq, and_true]
        omega
      · rw [if_neg (by simp [hLevel])]
        refine ⟨hBound, ?_⟩
        rw [← hDepth]
        simp only [Prod.mk.injEq, and_true]
        omega
  · intro d hd
    rw [Nest.live_release] at hd
    simp only [WriteBuffer.preCommitSub]
    split <;> exact h.under d hd

/-- The binding of an aborting subtransaction goes exactly if the subtransaction took it. -/
theorem WriteUnit.TakenBy.rollback {u : WriteUnit} {n : Nest Deed} {f : List Deed}
    {fs : List (List Deed)} (hBelow : n.below = f :: fs) (h : u.TakenBy n.labelled) {nlive : Nat}
    (hLive : n.rollback.labelled = [] → nlive = 0) :
    (if nlive = 0 && u.level ≥ n.depth then { u with bound := false } else u).TakenBy
      n.rollback.labelled := by
  rw [Nest.labelled_rollback hBelow] at h
  cases hLog : n.rollback.labelled with
  | nil =>
    rw [hLog, List.nil_append] at h
    cases hTop : n.top with
    | nil =>
      rw [hTop] at h
      split
      · rfl
      · exact h
    | cons d ds =>
      rw [hTop, List.map_cons] at h
      obtain ⟨-, hTake⟩ := h
      have hLevel : n.depth = u.level := congrArg Prod.fst hTake
      rw [if_pos (by simp [hLive hLog, hLevel])]
      rfl
  | cons x xs =>
    rw [hLog, List.cons_append] at h
    have hLt := Nest.level_lt_of_rollback hBelow (x := x) (by simp [hLog])
    obtain ⟨hBound, hTake⟩ := h
    have hLevel : x.1 = u.level := congrArg Prod.fst hTake
    rw [if_neg (by simp only [Bool.and_eq_true, decide_eq_true_eq]; omega)]
    exact ⟨hBound, hTake⟩

theorem Tracked.abort_top (hNest : s.backend.nest ≤ 1) :
    s.abort left = .ok ⟨⟨1, left.reset⟩, s.deeds.rollback⟩ := by
  rw [Tracked.abort, Backend.abort, if_pos hNest]
  rfl

theorem Tracked.abort_sub {b : WriteBuffer} (hNest : ¬ s.backend.nest ≤ 1)
    (hAbort : left.abortSub s.backend.nest = .ok b) :
    s.abort left = .ok ⟨⟨s.backend.nest - 1, b⟩, s.deeds.rollback⟩ := by
  rw [Tracked.abort, Backend.abort, if_neg hNest, hAbort]
  rfl

theorem Tracks.abort (h : Tracks s) (hLeft : s.backend.buffer.LeavesBehind left s.backend.nest) :
    ∃ t, s.abort left = .ok t ∧ Tracks t := by
  by_cases hNest : s.backend.nest ≤ 1
  · refine ⟨_, Tracked.abort_top hNest, ?_⟩
    have hBelow : s.deeds.below = [] := by
      have hDepth := h.nest
      rw [← List.length_eq_zero_iff]
      simp only [Nest.depth] at hDepth
      omega
    have hEmpty : s.deeds.rollback = .empty := by simp [Nest.rollback, hBelow]
    rw [hEmpty]
    exact ⟨rfl, rfl, rfl, Nat.zero_le _, rfl, rfl, by simp [Nest.live, Nest.empty]⟩
  · obtain ⟨f, fs, hBelow⟩ := h.below hNest
    obtain ⟨extra, hExtra, hLevel⟩ := hLeft.ops
    -- a row linked just before the error goes with the others of its level
    obtain ⟨hDrop, hTake⟩ := Nest.rdropWhile_append s.backend.buffer.ops (m := extra)
      (p := fun op => s.backend.nest ≤ op.level) fun op hOp => by simp [hLevel op hOp]
    have hKept : left.ops.rdropWhile (fun op => s.backend.nest ≤ op.level) =
        s.deeds.rollback.view fun level d => d.buffered level := by
      rw [hExtra, hDrop, h.ops, h.nest]
      exact Nest.view_rollback WriteOp.level Deed.level_of_buffered hBelow
    have hLive : left.nlive - (left.ops.rtakeWhile fun op => s.backend.nest ≤ op.level).length =
        (s.deeds.rollback.view fun level d => d.buffered level).length := by
      have hSplit := congrArg List.length (List.rdropWhile_append_rtakeWhile
        (p := fun op : WriteOp => decide (s.backend.nest ≤ op.level)) (l := left.ops))
      have hCount := hLeft.nlive
      rw [h.nlive] at hCount
      rw [List.length_append, hKept] at hSplit
      omega
    have hPrefix : (s.deeds.rollback.view fun level d => d.buffered level) <+:
        s.backend.buffer.ops := by
      rw [← hKept, hExtra, hDrop]
      exact List.rdropWhile_prefix _ _
    obtain ⟨rest, hRest⟩ := hPrefix
    have hFolded := h.folded
    rw [← hRest] at hFolded
    obtain ⟨L, hL, -⟩ := run_append_ok.mp hFolded
    refine ⟨_, Tracked.abort_sub hNest (WriteBuffer.abortSub_eq hKept hLive hL), ?_⟩
    refine ⟨?_, rfl, rfl, ?_, hL, ?_, ?_⟩
    · simp [Nest.rollback, Nest.depth, hBelow, h.nest]
    · have hCap := h.cap
      rw [h.nlive, ← hRest, List.length_append, ← hLeft.unit] at hCap
      dsimp only
      split <;> exact Nat.le_of_add_right_le hCap
    · have hTaken := h.taken
      rw [← hLeft.unit] at hTaken
      rw [h.nest]
      refine hTaken.rollback hBelow fun hNone => ?_
      rw [Nest.view, hNone]
      rfl
    · intro d hd
      have hUnder := h.under d (Nest.mem_live_of_rollback hd)
      rw [← hLeft.unit] at hUnder
      dsimp only
      split <;> exact hUnder

/-- One event keeps the buffer in step, and no fold of it raises. -/
theorem Tracks.step (h : Tracks s) (e : SqlEvent) :
    ∃ t, Tracked.step e s = .ok t ∧ Tracks t := by
  cases e with
  | bind i maxOps maxBytes =>
    simp only [Tracked.step]
    cases hBind : s.backend.buffer.bind s.backend.nest i maxOps maxBytes with
    | ok b => exact ⟨_, rfl, h.bind hBind⟩
    | error e => exact h.abort .refl
  | write i row bytes =>
    simp only [Tracked.step]
    cases hWrite : s.backend.buffer.modify s.backend.nest row bytes with
    | ok r => exact ⟨_, rfl, h.write hWrite⟩
    | error r => exact h.abort (WriteBuffer.modify_error hWrite)
  | savepoint =>
    refine ⟨_, rfl, ?_, ?_, h.nlive, h.cap, h.folded, ?_, ?_⟩
    · simp [Nest.start, Nest.depth, h.nest]
    · rw [Nest.view_start]
      exact h.ops
    · rw [Nest.labelled_start]
      exact h.taken
    · rw [Nest.live_start]
      exact h.under
  | release =>
    simp only [Tracked.step]
    split
    · exact h.abort .refl
    · rename_i hNest
      exact ⟨_, rfl, h.release hNest⟩
  | rollback => exact h.abort .refl

theorem Tracks.run (events : List SqlEvent) :
    ∃ s, Trace.run Tracked.step events {} = .ok s ∧ Tracks s := by
  refine Along.run_total (P := fun _ _ => True) (fun e _ s hs _ => hs.step e) Tracks.start ?_
  exact Along.of_invariant (I := fun _ => True) (fun _ _ _ _ _ _ => trivial)
    (fun _ _ _ _ => trivial) trivial

/-! ## The buffer -/

/-- The nest level aside, which a release rewrites. -/
def WriteOp.unlevelled (op : WriteOp) : WriteOp := { op with level := 0 }

/-- The operations of subtransactions that were not rolled back, in the order they were appended. -/
def Tracked.liveOps (s : Tracked) : List WriteOp := s.deeds.live.filterMap Deed.op?

theorem Tracks.unlevelled (h : Tracks s) :
    s.backend.buffer.ops.map WriteOp.unlevelled = s.liveOps.map WriteOp.unlevelled := by
  rw [h.ops, Tracked.liveOps, ← Nest.labelled_snd, Nest.view, List.filterMap_map,
    List.map_filterMap, List.map_filterMap]
  refine List.filterMap_congr fun x _ => ?_
  cases hOp : x.2 with
  | bound => simp [hOp, Deed.buffered, Deed.op?]
  | wrote => simp [hOp, Deed.buffered, Deed.op?, WriteOp.unlevelled]

theorem Tracks.levels (h : Tracks s) :
    s.backend.buffer.ops.Pairwise fun op op' => op.level ≤ op'.level := by
  rw [h.ops]
  refine List.Pairwise.filterMap _ (fun x y hLe op hOp op' hOp' => ?_) s.deeds.labelled_pairwise
  rw [Deed.level_of_buffered _ _ _ hOp, Deed.level_of_buffered _ _ _ hOp']
  exact hLe

/-- Whatever the statements of a backend do and however its savepoints nest, the
buffer holds the operations that were not rolled back, and folding it again gives
the ledger. No fold after a rollback raises: every run goes on to its end. -/
theorem buffer_tracks_savepoints (events : List SqlEvent) :
    ∃ s, run Tracked.step events {} = .ok s ∧
      s.backend.buffer.ops.map WriteOp.unlevelled = s.liveOps.map WriteOp.unlevelled ∧
      (s.backend.buffer.ops.Pairwise fun op op' => op.level ≤ op'.level) ∧
      s.backend.buffer.nlive = s.backend.buffer.ops.length ∧
      s.backend.buffer.nlive ≤ s.backend.buffer.unit.maxOps ∧
      foldOps s.backend.buffer.ops .empty = .ok s.backend.buffer.ledger := by
  obtain ⟨s, hRun, hs⟩ := Tracks.run events
  exact ⟨s, hRun, hs.unlevelled, hs.levels, hs.nlive, hs.cap, hs.folded⟩

/-! ## The binding -/

/-- Rows are written by statements that have bound, in subtransactions that are still open. -/
def Tracked.Legal (s : Tracked) : SqlEvent → Prop
  | .write i _ _ => .bound i ∈ s.deeds.live
  | _ => True

/-- Operations were appended under the identity of the statement that wrote them. -/
def Tracked.Owned (s : Tracked) : Prop :=
  ∀ i under op, .wrote i under op ∈ s.deeds.live → under = some i

theorem Tracked.Owned.abort {t : Tracked} (h : s.Owned) (hAbort : s.abort left = .ok t) :
    t.Owned := by
  have hDeeds : t.deeds = s.deeds.rollback := by
    unfold Tracked.abort at hAbort
    cases hBackend : ({ s.backend with buffer := left } : Backend).abort with
    | error r => simp [hBackend, Except.map] at hAbort
    | ok u =>
      rw [hBackend] at hAbort
      cases hAbort
      rfl
  intro i under op hOp
  rw [hDeeds] at hOp
  exact h i under op (Nest.mem_live_of_rollback hOp)

theorem Tracks.binding_of_mem (h : Tracks s) {i : Identity} (hi : .bound i ∈ s.deeds.live) :
    s.backend.buffer.unit.binding = some i := by
  rw [WriteUnit.binding, if_pos (h.bound_iff.mpr (List.ne_nil_of_mem hi))]
  exact congrArg some (h.under _ hi).symm

theorem Tracked.Owned.step {t : Tracked} (h : s.Owned) (hs : Tracks s) {e : SqlEvent}
    (hLegal : s.Legal e) (hStep : Tracked.step e s = .ok t) : t.Owned := by
  cases e with
  | bind i maxOps maxBytes =>
    simp only [Tracked.step] at hStep
    split at hStep
    · cases hStep
      intro j under op hOp
      rw [Tracked.go, Nest.live_note, List.mem_append] at hOp
      exact hOp.elim (h j under op) (by simp)
    · exact h.abort hStep
  | write i row bytes =>
    simp only [Tracked.step] at hStep
    split at hStep
    · cases hStep
      intro j under op hOp
      rw [Tracked.go, Nest.live_note, List.mem_append, List.mem_singleton] at hOp
      rcases hOp with hOp | hOp
      · exact h j under op hOp
      · cases hOp
        exact hs.binding_of_mem hLegal
    · exact h.abort hStep
  | savepoint =>
    cases hStep
    intro j under op hOp
    rw [Nest.live_start] at hOp
    exact h j under op hOp
  | release =>
    simp only [Tracked.step] at hStep
    split at hStep
    · exact h.abort hStep
    · cases hStep
      intro j under op hOp
      rw [Nest.live_release] at hOp
      exact h j under op hOp
  | rollback => exact h.abort hStep

/-- The earliest statement that bound and was not rolled back. -/
def Tracked.taker (s : Tracked) : Option Identity := s.deeds.live.head?.map Deed.identity

theorem Tracks.binding_eq_taker (h : Tracks s) :
    s.backend.buffer.unit.binding = s.taker := by
  have hTaken := h.taken
  rw [Tracked.taker, ← Nest.labelled_snd]
  cases hDeeds : s.deeds.labelled with
  | nil =>
    rw [hDeeds] at hTaken
    simp [WriteUnit.binding, show s.backend.buffer.unit.bound = false from hTaken]
  | cons x xs =>
    rw [hDeeds] at hTaken
    obtain ⟨hBound, rfl⟩ := hTaken
    simp [WriteUnit.binding, hBound, Deed.identity]

theorem Tracks.level_le (h : Tracks s) :
    ∀ x ∈ s.deeds.labelled, s.backend.buffer.unit.level ≤ x.1 := by
  have hTaken := h.taken
  have hSorted := s.deeds.labelled_pairwise
  cases hDeeds : s.deeds.labelled with
  | nil => simp
  | cons x xs =>
    rw [hDeeds] at hTaken hSorted
    obtain ⟨-, rfl⟩ := hTaken
    exact List.forall_mem_cons.mpr ⟨Nat.le_refl _, (List.pairwise_cons.mp hSorted).1⟩

theorem Tracks.binding_of_owned (h : Tracks s) (hOwned : s.Owned) {d : Deed} (hd : d ∈ s.deeds.live)
    :
    s.backend.buffer.unit.binding = some d.identity := by
  cases d with
  | bound i => exact h.binding_of_mem hd
  | wrote i under op =>
    rw [WriteUnit.binding, if_pos (h.bound_iff.mpr (List.ne_nil_of_mem hd))]
    exact (h.under _ hd).symm.trans (hOwned i under op hd)

/-- Whatever the statements of a backend do and however its savepoints nest, the
binding is the one of the earliest statement that was not rolled back, taken at a
level that no other statement is below. Every statement that is left bound that
identity and wrote under it, so a buffer that holds an operation is bound; and once
none is left, any identity may bind. -/
theorem unit_tracks_savepoints {events : List SqlEvent}
    (hLegal : Along Tracked.step Tracked.Legal events {}) :
    ∃ s, run Tracked.step events {} = .ok s ∧
      s.backend.buffer.unit.binding = s.taker ∧
      (∀ x ∈ s.deeds.labelled, s.backend.buffer.unit.level ≤ x.1) ∧
      (∀ d ∈ s.deeds.live, s.backend.buffer.unit.binding = some d.identity) ∧
      (∀ i under op, .wrote i under op ∈ s.deeds.live → s.backend.buffer.unit.binding = under) ∧
      s.backend.buffer.ops.map WriteOp.unlevelled = s.liveOps.map WriteOp.unlevelled ∧
      (s.backend.buffer.ops ≠ [] → s.backend.buffer.unit.bound = true) ∧
      (s.deeds.live = [] → ∀ level i maxOps maxBytes,
        ∃ b, s.backend.buffer.bind level i maxOps maxBytes = .ok b) := by
  obtain ⟨s, hRun, hs, hOwned⟩ := hLegal.run_total (I := fun s => Tracks s ∧ s.Owned)
    (fun e _ s hs hLegal => by
      obtain ⟨t, hStep, ht⟩ := hs.1.step e
      exact ⟨t, hStep, ht, hs.2.step hs.1 hLegal hStep⟩)
    ⟨Tracks.start, by simp [Tracked.Owned, Nest.live, Nest.empty]⟩
  refine ⟨s, hRun, hs.binding_eq_taker, hs.level_le, fun d hd => hs.binding_of_owned hOwned hd,
    fun i under op hOp => ?_, hs.unlevelled, fun hOps => ?_, fun hNone level i maxOps maxBytes => ?_⟩
  · rw [hOwned i under op hOp]
    exact hs.binding_of_owned hOwned hOp
  · rw [hs.bound_iff]
    intro hNone
    have hMap := hs.unlevelled
    simp [Tracked.liveOps, hNone] at hMap
    exact hOps hMap
  · have hBound : s.backend.buffer.unit.bound = false := by
      rw [← Bool.not_eq_true, hs.bound_iff]
      exact fun hSome => hSome hNone
    exact ⟨_, by simp [WriteBuffer.bind, hBound]; rfl⟩

/-- A write to one server is rolled back, and the transaction goes on with another. -/
def switchServer : List SqlEvent :=
  let op : WriteOp :=
    { kind := .insert, relid := 1, tabletype := .string, key := [1], value := some [2] }
  [.savepoint, .bind ⟨1, 1, 0⟩ 10 100, .write ⟨1, 1, 0⟩ (some op) 8, .rollback,
    .bind ⟨2, 1, 0⟩ 10 100, .write ⟨2, 1, 0⟩ (some op) 8]

theorem switchServer_legal : Along Tracked.step Tracked.Legal switchServer {} := by
  refine ⟨trivial, fun s₁ h₁ => ⟨trivial, fun s₂ h₂ => ⟨?_, fun s₃ h₃ => ⟨trivial, fun s₄ h₄ =>
    ⟨trivial, fun s₅ h₅ => ⟨?_, fun _ _ => trivial⟩⟩⟩⟩⟩⟩
  · cases h₁
    cases h₂
    exact List.mem_singleton_self _
  · cases h₁
    cases h₂
    cases h₃
    cases h₄
    cases h₅
    exact List.mem_singleton_self _

theorem unit_tracks_savepoints_switchServer :
    ∃ s, run Tracked.step switchServer {} = .ok s ∧ s.backend.buffer.unit.binding = s.taker := by
  obtain ⟨s, hRun, hTaker, -⟩ := unit_tracks_savepoints switchServer_legal
  exact ⟨s, hRun, hTaker⟩

example : (run Tracked.step switchServer {}).toOption.map (·.backend.buffer.unit.binding) =
    some (some ⟨2, 1, 0⟩) := rfl

end ValkeyFdw
