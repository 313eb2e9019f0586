import ValkeyFdw.Lib.Gather
import ValkeyFdw.Scan.Row

/-!
# A scan and the writes of its own transaction

The overlay answers what the transaction has done to a key of a table: nothing
it may see (`pass`), a deletion (`hide`), or a row (`replace`). A scan asks it
for every key the server's pages name, and afterwards adds the keys the
transaction created itself. `Scan.run_eq` reads a complete scan as the rows of one
list of keys, `shown` giving the rows of each.
-/

namespace ValkeyFdw

open Gather

/-! ## Verdicts -/

/-- What the overlay says about a key. -/
inductive Verdict where
  | pass
  | hide
  | replace (row : Row)
deriving DecidableEq

/-- The operations of the buffer that a command may see: those of earlier commands. -/
def visible (cid : Nat) (buffer : List WriteOp) : List WriteOp := buffer.filter (·.cid < cid)

/-- What the transaction has done to a key of a table: the newest operation that
the command may see decides. -/
def overlayCheck (buffer : List WriteOp) (relid cid : Nat) (key : Bytes) : Verdict :=
  match buffer.reverse.find? fun op => op.relid = relid && op.key = key && op.cid < cid with
  | none => .pass
  | some op =>
    if op.kind = .delete then .hide
    else match op.newtup with
      | none => .pass
      | some row => .replace row

/-! ## Scanning -/

/-- A scan of the table `relid` by the command `cid`; `rows` reads the rows that
the server has under a key. -/
structure Scan where
  relid : Nat
  cid : Nat
  buffer : List WriteOp
  rows : Bytes → Except ReadError (List Row)

namespace Scan

variable (S : Scan)

/-- The verdict on a key the server named, and the keys seen so far. With an
empty buffer nothing is recorded. -/
def applyOverlay (seen : List Bytes) (key : Bytes) : Verdict × List Bytes :=
  if S.buffer = [] then (.pass, seen)
  else (overlayCheck S.buffer S.relid S.cid key, key :: seen)

/-- The rows of one page. -/
def scanKeys : List Bytes → List Bytes → Except ReadError (List Row × List Bytes)
  | [], seen => .ok ([], seen)
  | key :: keys, seen =>
    match S.applyOverlay seen key with
    | (.replace row, seen) => do
      let (rows, seen) ← scanKeys keys seen
      return (row :: rows, seen)
    | (.hide, seen) => scanKeys keys seen
    | (.pass, seen) => do
      let own ← S.rows key
      let (rows, seen) ← scanKeys keys seen
      return (own ++ rows, seen)

/-- Page after page; an empty page does not end the scan. -/
def scanPages : List (List Bytes) → List Bytes → Except ReadError (List Row × List Bytes)
  | [], seen => .ok ([], seen)
  | page :: pages, seen => do
    let (rows, seen) ← S.scanKeys page seen
    let (rest, seen) ← scanPages pages seen
    return (rows ++ rest, seen)

/-- The rows of keys that the transaction created and the pages did not name,
from the operations of the buffer. -/
def inject : List WriteOp → List Bytes → List Row
  | [], _ => []
  | op :: ops, seen =>
    if op.relid = S.relid ∧ op.kind = .insert then
      match overlayCheck S.buffer op.relid S.cid op.key with
      | .replace row => if op.key ∈ seen then inject ops seen else row :: inject ops (op.key :: seen)
      | .pass | .hide => inject ops seen
    else inject ops seen

/-- The rows of a complete scan. -/
def run (pages : List (List Bytes)) : Except ReadError (List Row) := do
  let (rows, seen) ← S.scanPages pages []
  return rows ++ S.inject S.buffer seen

/-! ## A scan as a list of keys -/

/-- What a key contributes to the scan. -/
def shown (key : Bytes) : Except ReadError (List Row) :=
  match overlayCheck S.buffer S.relid S.cid key with
  | .pass => S.rows key
  | .hide => .ok []
  | .replace row => .ok [row]

/-- The keys the tail adds to those already seen. -/
def tailKeys : List WriteOp → List Bytes → List Bytes
  | [], _ => []
  | op :: ops, seen =>
    match overlayCheck S.buffer S.relid S.cid op.key with
    | .replace _ =>
      if op.relid = S.relid ∧ op.kind = .insert ∧ op.key ∉ seen then
        op.key :: tailKeys ops (op.key :: seen)
      else tailKeys ops seen
    | .pass | .hide => tailKeys ops seen

variable {S}

theorem applyOverlay_eq (seen : List Bytes) (key : Bytes) :
    S.applyOverlay seen key = (overlayCheck S.buffer S.relid S.cid key,
      if S.buffer = [] then seen else key :: seen) := by
  unfold applyOverlay
  split
  · rename_i hEmpty
    simp [overlayCheck, hEmpty]
  · rfl

theorem scanKeys_eq (keys seen : List Bytes) :
    S.scanKeys keys seen = (gather S.shown keys).map fun rows =>
      (rows, if S.buffer = [] then seen else keys.reverse ++ seen) := by
  induction keys generalizing seen with
  | nil => simp [scanKeys, gather, Except.map]
  | cons key keys ih =>
    rw [scanKeys, applyOverlay_eq, gather, shown]
    have hSeen : (if S.buffer = [] then (if S.buffer = [] then seen else key :: seen)
        else keys.reverse ++ (if S.buffer = [] then seen else key :: seen)) =
        if S.buffer = [] then seen else (key :: keys).reverse ++ seen := by
      split <;> simp
    cases overlayCheck S.buffer S.relid S.cid key with
    | pass =>
      dsimp only
      rw [ih, hSeen]
      cases S.rows key with
      | error e => rfl
      | ok own => cases gather S.shown keys <;> rfl
    | hide =>
      dsimp only
      rw [ih, hSeen]
      cases gather S.shown keys <;> rfl
    | replace row =>
      dsimp only
      rw [ih, hSeen]
      cases gather S.shown keys <;> rfl

theorem scanPages_eq (pages : List (List Bytes)) (seen : List Bytes) :
    S.scanPages pages seen = (gather S.shown pages.flatten).map fun rows =>
      (rows, if S.buffer = [] then seen else pages.flatten.reverse ++ seen) := by
  induction pages generalizing seen with
  | nil => simp [scanPages, gather, Except.map]
  | cons page pages ih =>
    rw [scanPages, scanKeys_eq, List.flatten_cons, gather_append]
    cases gather S.shown page with
    | error e => rfl
    | ok rows =>
      have hSeen : (if S.buffer = [] then (if S.buffer = [] then seen else page.reverse ++ seen)
          else pages.flatten.reverse ++ (if S.buffer = [] then seen else page.reverse ++ seen)) =
          if S.buffer = [] then seen else (page ++ pages.flatten).reverse ++ seen := by
        split <;> simp
      simp only [Except.map, bind, Except.bind]
      rw [ih, hSeen]
      cases gather S.shown pages.flatten <;> rfl

/-- The tail shows the newest row of every key it adds. -/
theorem gather_tailKeys (ops : List WriteOp) (seen : List Bytes) :
    gather S.shown (S.tailKeys ops seen) = .ok (S.inject ops seen) := by
  induction ops generalizing seen with
  | nil => rfl
  | cons op ops ih =>
    by_cases hOwn : op.relid = S.relid ∧ op.kind = .insert
    · rw [inject, if_pos hOwn, tailKeys, hOwn.1]
      cases hCheck : overlayCheck S.buffer S.relid S.cid op.key with
      | pass => exact ih seen
      | hide => exact ih seen
      | replace row =>
        by_cases hSeen : op.key ∈ seen
        · simp only [hSeen, not_true_eq_false, and_false, if_false, if_true]
          exact ih seen
        · simp only [hSeen, hOwn, not_false_eq_true, and_self, if_true, if_false]
          rw [gather, shown, hCheck, ih]
          rfl
    · rw [inject, if_neg hOwn, tailKeys]
      have hNot : ¬(op.relid = S.relid ∧ op.kind = .insert ∧ op.key ∉ seen) := by tauto
      cases overlayCheck S.buffer S.relid S.cid op.key with
      | pass => exact ih seen
      | hide => exact ih seen
      | replace row =>
        simp only [if_neg hNot]
        exact ih seen

/-- A complete scan reads the keys of its pages, then those of the tail. -/
theorem run_eq (pages : List (List Bytes)) :
    S.run pages =
      gather S.shown (pages.flatten ++ S.tailKeys S.buffer pages.flatten.reverse) := by
  rw [run, scanPages_eq, gather_append]
  have hSeen : S.tailKeys S.buffer (if S.buffer = [] then [] else pages.flatten.reverse ++ []) =
      S.tailKeys S.buffer pages.flatten.reverse := by
    split
    · rename_i hEmpty
      rw [hEmpty]
      rfl
    · rw [List.append_nil]
  cases gather S.shown pages.flatten with
  | error e => rfl
  | ok rows =>
    simp only [Except.bind, Except.map, bind]
    rw [← hSeen, gather_tailKeys]
    rfl

theorem mem_tailKeys {ops : List WriteOp} {seen : List Bytes} {key : Bytes} :
    key ∈ S.tailKeys ops seen ↔ key ∉ seen ∧
      (∃ op ∈ ops, (op.relid = S.relid ∧ op.kind = .insert) ∧ op.key = key) ∧
      ∃ row, overlayCheck S.buffer S.relid S.cid key = .replace row := by
  induction ops generalizing seen with
  | nil => simp [tailKeys]
  | cons op ops ih =>
    rw [tailKeys]
    cases hCheck : overlayCheck S.buffer S.relid S.cid op.key with
    | pass => grind
    | hide => grind
    | replace row => grind

theorem tailKeys_nodup (ops : List WriteOp) (seen : List Bytes) : (S.tailKeys ops seen).Nodup := by
  induction ops generalizing seen with
  | nil => exact List.nodup_nil
  | cons op ops ih =>
    rw [tailKeys]
    split
    · split_ifs
      · refine List.nodup_cons.mpr ⟨fun hMem => ?_, ih _⟩
        exact (mem_tailKeys.mp hMem).1 List.mem_cons_self
      · exact ih seen
    · exact ih seen
    · exact ih seen

end Scan

/-! ## The newest operation -/

open Trace

/-- The newest operation of a list on a key of a table. -/
def newest (relid : Nat) (key : Bytes) (ops : List WriteOp) : Option WriteOp :=
  lastWrite (fun op : WriteOp => if op.relid = relid ∧ op.key = key then some op else none) ops

theorem newest_spec {relid : Nat} {key : Bytes} {ops : List WriteOp} {op : WriteOp}
    (h : newest relid key ops = some op) : op ∈ ops ∧ op.relid = relid ∧ op.key = key := by
  obtain ⟨o, ho, hSome⟩ := exists_of_lastWrite h
  split at hSome
  · rename_i hOwn
    cases hSome
    exact ⟨ho, hOwn⟩
  · cases hSome

theorem overlayCheck_eq (buffer : List WriteOp) (relid cid : Nat) (key : Bytes) :
    overlayCheck buffer relid cid key =
      match newest relid key (visible cid buffer) with
      | none => .pass
      | some op => if op.kind = .delete then .hide else op.newtup.elim .pass .replace := by
  have hNewest : newest relid key (visible cid buffer) =
      buffer.reverse.find? fun op => op.relid = relid && op.key = key && op.cid < cid := by
    have hFind := lastWrite_find? (fun op : WriteOp => op.relid = relid && op.key = key)
      (visible cid buffer)
    simp only [Bool.and_eq_true, decide_eq_true_eq] at hFind
    rw [newest, hFind, visible, ← List.filter_reverse, List.find?_filter]
    congr 1
    funext op
    simp [Bool.and_comm]
  rw [overlayCheck, ← hNewest]
  cases newest relid key (visible cid buffer) with
  | none => rfl
  | some op =>
    dsimp only
    cases op.newtup <;> rfl

/-- The rows that an operation which writes a whole row leaves under its key. -/
def WriteOp.left (op : WriteOp) : List Row := if op.kind = .delete then [] else op.newtup.toList

/-- What a key contributes to a scan: the row of the newest operation the command
may see, or the server's rows where there is none. -/
theorem Scan.shown_eq {S : Scan} (hTup : ∀ op ∈ visible S.cid S.buffer, op.relid = S.relid →
    op.kind ≠ .delete → op.newtup.isSome) (key : Bytes) :
    S.shown key = ((newest S.relid key (visible S.cid S.buffer)).map fun op =>
      .ok op.left).getD (S.rows key) := by
  rw [shown, overlayCheck_eq]
  cases hNewest : newest S.relid key (visible S.cid S.buffer) with
  | none => rfl
  | some op =>
    obtain ⟨hOp, hRelid, -⟩ := newest_spec hNewest
    by_cases hKind : op.kind = .delete
    · simp [WriteOp.left, hKind]
    · obtain ⟨row, hRow⟩ := Option.isSome_iff_exists.mp (hTup op hOp hRelid hKind)
      simp [WriteOp.left, hKind, hRow]

theorem lastWrite_left {relid : Nat} {ops : List WriteOp} (hRelid : ∀ op ∈ ops, op.relid = relid)
    (key : Bytes) :
    lastWrite (fun op : WriteOp =>
        if op.key = key then some (.ok op.left : Except ReadError (List Row)) else none) ops =
      (newest relid key ops).map fun op => .ok op.left := by
  rw [newest, ← lastWrite_option_map]
  refine lastWrite_congr fun op hOp => ?_
  by_cases hk : op.key = key <;> simp [hk, hRelid op hOp]

end ValkeyFdw
