import ValkeyFdw.Scan.Table

/-!
# The rows a transaction has pending

A scan through the overlay shows, under each key it reaches, what the newest operation
that the command may see leaves there, and the server's rows where there is none. If a
later state of the server has those rows under every key, and a key that is only
updated had a row before, the scan lists that state (`select_lists_pending`).
-/

namespace ValkeyFdw

open Gather

namespace TableMap

variable (m : TableMap) [Listing] [Inputs] (now : Nat) (ks : Keyspace)

/-- The rows under a key by the newest of the operations that has it as its key; the
rows that the server holds where there is none. -/
def pending (ops : List WriteOp) (key : Bytes) : Except ReadError (List Row) :=
  ((newest m.relid key ops).map fun op => .ok op.left).getD (m.rowsAt now ks key)

/-- The keys that a scan shows: those of the pages, and those of the tail. -/
def reached (buffer : List WriteOp) (cid : Nat) (a : Access) : List Bytes :=
  (a.pages m).flatten ++ Scan.tailKeys ⟨m.relid, cid, buffer, m.serverRows now a.named ks⟩ buffer
    (a.pages m).flatten.reverse

/-- A key that is only updated had a row before. -/
def Found (ops : List WriteOp) (key : Bytes) : Prop :=
  ∀ op, newest m.relid key ops = some op → op.kind = .update →
    (∀ o ∈ ops, o.relid = m.relid → o.key = key → o.kind ≠ .insert) → m.rowsAt now ks key ≠ .ok []

end TableMap

section Pending

variable [Listing] [Inputs] {m : TableMap} {ks ks' : Keyspace} {buffer : List WriteOp}
  {now cid : Nat} {a : Access} {q : Row → Bool} {key : Bytes}

/-- The tail adds the keys of the table's INSERTs whose newest row is there. -/
theorem TableMap.mem_reached (hTup : ∀ op ∈ visible cid buffer, op.relid = m.relid →
    op.kind ≠ .delete → op.newtup.isSome) :
    key ∈ m.reached now ks buffer cid a ↔ key ∈ (a.pages m).flatten ∨
      (∃ op ∈ buffer, (op.relid = m.relid ∧ op.kind = .insert) ∧ op.key = key) ∧
        ∃ op, newest m.relid key (visible cid buffer) = some op ∧ op.kind ≠ .delete := by
  have hCheck : (∃ row, overlayCheck buffer m.relid cid key = .replace row) ↔
      ∃ op, newest m.relid key (visible cid buffer) = some op ∧ op.kind ≠ .delete := by
    rw [overlayCheck_eq]
    cases hNewest : newest m.relid key (visible cid buffer) with
    | none => simp
    | some op =>
      obtain ⟨hOp, hRelid, -⟩ := newest_spec hNewest
      by_cases hKind : op.kind = .delete
      · simp [hKind]
      · obtain ⟨row, hRow⟩ := Option.isSome_iff_exists.mp (hTup op hOp hRelid hKind)
        simp [hKind, hRow]
  rw [reached, List.mem_append, Scan.mem_tailKeys, hCheck, List.mem_reverse]
  tauto

theorem TableMap.reached_nodup (hReads : a.Reads m ks q) : (m.reached now ks buffer cid a).Nodup := by
  refine List.nodup_append.mpr ⟨hReads.nodup, Scan.tailKeys_nodup _ _, ?_⟩
  rintro x hx y hy rfl
  exact (Scan.mem_tailKeys.mp hy).1 (List.mem_reverse.mpr hx)

variable [Doubles]

omit [Listing] [Inputs] in
theorem TableMap.newtup_of_buffers (hBuffer : ∀ op ∈ buffer, op.relid = m.relid → m.Buffers op)
    (cid : Nat) : ∀ op ∈ visible cid buffer, op.relid = m.relid → op.kind ≠ .delete →
      op.newtup.isSome := by
  intro op hOp hRelid hKind
  obtain ⟨_, row, -, hRender⟩ := (hBuffer op (List.mem_of_mem_filter hOp) hRelid).rendered hKind
  simp [hRender.newtup]

/-- A query reads the pending rows of the keys that its scan reaches. -/
theorem TableMap.select_eq_pending (hBuffer : ∀ op ∈ buffer, op.relid = m.relid → m.Buffers op)
    (hReads : a.Reads m ks q) : m.select now ks buffer cid a q =
      (gather (m.pending now ks (visible cid buffer)) (m.reached now ks buffer cid a)).map
        (List.filter q) := by
  have hTup := newtup_of_buffers hBuffer cid
  rw [select, Scan.run_eq]
  refine congrArg _ (gather_congr fun k hk => ?_)
  rw [Scan.shown_eq hTup, pending]
  cases hNewest : newest m.relid k (visible cid buffer) with
  | some op => rfl
  | none =>
    rcases (mem_reached hTup).mp hk with hPage | ⟨-, op, hSome, -⟩
    · exact hReads.rowsAt_of_mem hPage
    · cases hNewest.symm.trans hSome

omit [Doubles] in
/-- A row that the write path gave a key that the access path does not fetch fails the recheck. -/
theorem Access.Reads.misses_written (hReads : a.Reads m ks q) (hValid : m.Valid)
    (hKey : key ∉ (a.pages m).flatten) (hHeld : m.rowsAt now ks key ≠ .ok []) {row : Row}
    (hRow : m.buildKey (m.slot .key row) = .ok key) : q row = false := by
  have hMisses : m.rowsAt now ks key = .ok [] ∨ _ := hReads.misses hValid.prefixOrKeyset hKey
  obtain ⟨-, hRecheck⟩ := hMisses.resolve_left hHeld
  have hSingleton : m.singletonKey = none := by
    cases a with
    | keyspace => exact hReads.1
    | keys => exact hReads.1
    | singleton s =>
      have hne : key ≠ s := by simpa [pages] using hKey
      have hOwns : m.owns ks key = false := by
        simp [TableMap.owns, show m.singletonKey = _ from hReads, hne]
      rw [TableMap.rowsAt, if_neg (by simp [hOwns])] at hHeld
      exact absurd rfl hHeld
  obtain ⟨⟨c, hSlot⟩, -⟩ := TableMap.buildKey_ok hSingleton hRow
  exact hRecheck row (by rw [TableMap.keyText, hSlot])

/-- A scan lists the state of the server in which every key has its pending rows. -/
theorem TableMap.select_lists_pending (hValid : m.Valid)
    (hBuffer : ∀ op ∈ buffer, op.relid = m.relid → m.Buffers op) (hReads : a.Reads m ks q)
    (hRows : ∀ k, m.rowsAt now ks' k = m.pending now ks (visible cid buffer) k)
    (hFound : ∀ k, m.Found now ks (visible cid buffer) k) :
    Lists (m.rowsAt now ks') q (m.select now ks buffer cid a q) := by
  have hTup := newtup_of_buffers hBuffer cid
  rw [select_eq_pending hBuffer hReads, gather_congr fun k _ => (hRows k).symm]
  refine Lists.of_gather (reached_nodup hReads) fun k hk rows hRowsK row hRow => ?_
  rw [mem_reached hTup, not_or] at hk
  rw [hRows, pending] at hRowsK
  cases hNewest : newest m.relid k (visible cid buffer) with
  | none =>
    rw [hNewest] at hRowsK
    exact hReads.rechecked hValid hk.1 hRowsK hRow
  | some op =>
    rw [hNewest] at hRowsK
    cases hRowsK
    obtain ⟨hOp, hRelid, rfl⟩ := newest_spec hNewest
    have hKind : op.kind ≠ .delete := fun hKind => by simp [WriteOp.left, hKind] at hRow
    obtain ⟨_, row', -, hRender⟩ := (hBuffer op (List.mem_of_mem_filter hOp) hRelid).rendered hKind
    obtain rfl : row = row' := by simpa [WriteOp.left, hKind, hRender.newtup] using hRow
    -- The tail left the key out although its newest row is there: nothing inserted it.
    have hNot : ∀ o ∈ visible cid buffer, o.relid = m.relid → o.key = op.key → o.kind ≠ .insert :=
      fun o ho hoRelid hoKey hoKind =>
        hk.2 ⟨⟨o, List.mem_of_mem_filter ho, ⟨hoRelid, hoKind⟩, hoKey⟩, op, hNewest, hKind⟩
    have hUpdate : op.kind = .update := by
      cases h : op.kind with
      | insert => exact absurd h (hNot op hOp hRelid rfl)
      | update => rfl
      | delete => exact absurd h hKind
    exact hReads.misses_written hValid hk.1 (hFound _ op hNewest hUpdate hNot) hRender.key

end Pending

end ValkeyFdw
