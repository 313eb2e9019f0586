import Mathlib.Data.List.DropRight
import ValkeyFdw.Ledger.Order

/-!
# The write buffer of a session

A session buffers its operations and folds each into its ledger as it comes. A
savepoint that is rolled back drops the operations buffered under it, and the
ledger is folded again from what is left; one that is released hands its
operations to its parent. The ledger of a session is always the fold of its
buffer, which is why folding it again never fails (`Session.abortSub_buffer`).
-/

namespace ValkeyFdw

open Trace

/-! ## The fold does not read the nesting level -/

theorem foldFields_level (op : WriteOp) (n : Nat) (fs : List WriteArg) :
    foldFields { op with level := n } fs = foldFields op fs := by
  induction fs with
  | nil => rfl
  | cons f fs ih =>
    funext plan members
    simp only [foldFields, ih]
    rfl

theorem note_level (op : WriteOp) (n : Nat) : note { op with level := n } = note op := by
  have hHash : foldHash { op with level := n } = foldHash op := by
    funext plan members
    simp only [foldHash, foldFields_level]
    rfl
  have hShape : foldShape { op with level := n } = foldShape op := by
    funext plan members
    simp only [foldShape, hHash]
    rfl
  have hWrite : foldWrite { op with level := n } = foldWrite op := by
    funext plan members
    simp only [foldWrite, hShape]
    rfl
  funext L
  simp only [note, hWrite]
  rfl

/-- Hand the operations buffered at a nesting level or below to its parent. -/
def promote (level : Nat) (buffer : List WriteOp) : List WriteOp :=
  (buffer.rdropWhile fun op => level ≤ op.level) ++
    (buffer.rtakeWhile fun op => level ≤ op.level).map fun op => { op with level := level - 1 }

theorem foldOps_promote (level : Nat) (buffer : List WriteOp) {L : Ledger}
    (h : foldOps buffer .empty = .ok L) : foldOps (promote level buffer) .empty = .ok L := by
  have hMap : ∀ (ops : List WriteOp) (L : Ledger),
      foldOps (ops.map fun op => { op with level := level - 1 }) L = foldOps ops L := by
    intro ops
    induction ops with
    | nil => exact fun _ => rfl
    | cons op ops ih =>
      intro L
      simp only [foldOps, List.map_cons, run, note_level]
      congr 1
      funext L'
      exact ih L'
  have hSplit := List.rdropWhile_append_rtakeWhile (p := fun op : WriteOp => level ≤ op.level)
    (l := buffer)
  rw [← hSplit] at h
  obtain ⟨L₁, hKept, hRest⟩ := run_append_ok.mp h
  exact run_append_ok.mpr ⟨L₁, hKept, (hMap _ L₁).trans hRest⟩

/-! ## Sessions -/

/-- A buffer together with the ledger folded from it. -/
structure Session where
  buffer : List WriteOp
  ledger : Ledger
  folded : foldOps buffer .empty = .ok ledger

namespace Session

def empty : Session where
  buffer := []
  ledger := .empty
  folded := rfl

/-- Buffer an operation. One that the fold refuses raises an error, and the abort
that follows takes it out of the buffer again. -/
def write (s : Session) (op : WriteOp) : Session :=
  match h : note op s.ledger with
  | .error _ => s
  | .ok L =>
    { buffer := s.buffer ++ [op]
      ledger := L
      folded := run_append_ok.mpr ⟨s.ledger, s.folded, by rw [run_singleton, h]⟩ }

/-- Fold a buffer from the beginning. -/
def rebuild (buffer : List WriteOp) : Session :=
  match h : foldOps buffer .empty with
  | .ok L => ⟨buffer, L, h⟩
  | .error _ => .empty

/-- Roll back to the savepoint that opened a nesting level. -/
def abortSub (s : Session) (level : Nat) : Session :=
  rebuild (s.buffer.rdropWhile fun op => level ≤ op.level)

theorem rebuild_buffer {buffer : List WriteOp} {L : Ledger}
    (h : foldOps buffer .empty = .ok L) : (rebuild buffer).buffer = buffer := by
  unfold rebuild
  split
  · rfl
  · simp_all

theorem abortSub_buffer (s : Session) (level : Nat) :
    (s.abortSub level).buffer = s.buffer.rdropWhile fun op => level ≤ op.level := by
  obtain ⟨dropped, hSplit⟩ := List.rdropWhile_prefix (fun op : WriteOp => level ≤ op.level) s.buffer
  have hFold := s.folded
  rw [← hSplit] at hFold
  obtain ⟨L, hL, -⟩ := run_append_ok.mp hFold
  exact rebuild_buffer hL

/-- Release the savepoint that opened a nesting level. -/
def commitSub (s : Session) (level : Nat) : Session where
  buffer := promote level s.buffer
  ledger := s.ledger
  folded := foldOps_promote level s.buffer s.folded

/-- A property of operations that does not depend on their nesting level. -/
def Levelless (P : WriteOp → Prop) : Prop := ∀ op n, P op → P { op with level := n }

section Invariant

variable {P : WriteOp → Prop} {s : Session}

theorem forall_write (h : ∀ op ∈ s.buffer, P op) {op : WriteOp} (hOp : P op) :
    ∀ o ∈ (s.write op).buffer, P o := by
  unfold write
  split
  · exact h
  · intro o ho
    rcases List.mem_append.mp ho with ho | ho
    · exact h o ho
    · exact List.mem_singleton.mp ho ▸ hOp

theorem forall_abortSub (h : ∀ op ∈ s.buffer, P op) (level : Nat) :
    ∀ o ∈ (s.abortSub level).buffer, P o := by
  rw [abortSub_buffer]
  intro o ho
  exact h o ((List.rdropWhile_prefix _ _).subset ho)

theorem forall_commitSub (hP : Levelless P) (h : ∀ op ∈ s.buffer, P op) (level : Nat) :
    ∀ o ∈ (s.commitSub level).buffer, P o := by
  intro o ho
  rcases List.mem_append.mp ho with ho | ho
  · exact h o ((List.rdropWhile_prefix _ _).subset ho)
  · obtain ⟨op, hOp, rfl⟩ := List.mem_map.mp ho
    exact hP op _ (h op ((List.rtakeWhile_suffix _ _).subset hOp))

end Invariant

end Session

end ValkeyFdw
