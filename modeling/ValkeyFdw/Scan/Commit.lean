import ValkeyFdw.Safety.Keyset
import ValkeyFdw.Scan.Strings

/-!
# What a SELECT sees and what COMMIT applies

The overlay answers for a whole key, by the newest operation that has it as its key,
while a commit edits members, fields and elements, and moves keys. `Agrees` says of the
last operation about a key, in the order of the program, when the two come to the same
rows there: it shows the only row that it leaves. A complete scan agrees with one after
the commit if and only if this is so for every key that the operations name, and
then every other access path does too (`own_writes_iff`).
-/

namespace ValkeyFdw

open Server Trace Gather

/-! ## The operations of a table -/

theorem TableMap.supported {m : TableMap} (hValid : m.Valid) (hWritable : m.writable .insert = true) :
    m.tabletype ≠ .vector ∧
      (m.legacyValue = true → m.tabletype = .hash ∨ m.tabletype = .set ∨ m.tabletype = .list) := by
  constructor
  · intro hVector
    simp [writable, writeBlock, hVector] at hWritable
  · intro hLegacy
    have hString := (hValid.packed hLegacy).1
    cases hType : m.tabletype <;> simp_all [writable, writeBlock]

theorem TableMap.Buffers.rowOp [Doubles] {m : TableMap} (hValid : m.Valid)
    (hWritable : m.writable .insert = true) {op : WriteOp} (h : m.Buffers op) :
    OfTable m.tabletype m.legacyValue m.keyset op := by
  obtain ⟨-, hType, hShape, hKeyset⟩ := h.ofTable
  obtain ⟨hVector, hPacked⟩ := supported hValid hWritable
  have hBuffered : op.Buffered := by
    cases h with
    | insert _ h =>
      obtain ⟨hKey, hMember⟩ := render_old h
      have hKind := (render_spec h).kind_eq
      exact ⟨fun _ => hKey, fun _ => hMember, fun _ _ => by simp [hKind]⟩
    | update _ _ h =>
      have hList : ¬(m.tabletype = .list ∧ m.legacyValue = false) := by
        intro hList
        simp [TableMap.update, hList] at h
      obtain ⟨op₀, k, om, hRender, -, -, rfl⟩ := update_spec h
      have hKind := hRender.kind_eq
      refine ⟨fun hNot => absurd hKind hNot, fun hNot => absurd hKind hNot, fun hType hShape => ?_⟩
      exact absurd ⟨hRender.tabletype ▸ hType, hRender.shape ▸ hShape⟩ hList
    | delete _ h =>
      have hDelete := delete_spec h
      exact ⟨fun _ => hDelete.oldkey, fun _ => hDelete.oldmember,
        fun _ _ => by simp [hDelete.kind_eq]⟩
  exact { hBuffered with
    type := hType, shape := hShape, index := hKeyset
    supported := ⟨hType ▸ hVector, fun hLegacy => hType ▸ hPacked (hShape ▸ hLegacy)⟩ }

/-! ## Keys and their rows -/

section Rows

variable [Listing] [Inputs] {m : TableMap} {now : Nat} {ks : Keyspace} {n : Bytes}

omit [Inputs] in
theorem TableMap.sources_eq_nil (hVector : m.tabletype ≠ .vector) {e : Option Value} :
    m.sources e = [] ↔ ∀ v, e = some v → v.type ≠ m.tabletype.valueType := by
  cases e with
  | none => simp [sources]
  | some v =>
    rw [sources]
    split_ifs with hType hPacked
    · simpa using hType
    · simpa using hType
    · refine iff_of_false ?_ fun h => h v rfl (by simpa using hType)
      cases v with
      | string | hash => simp [Value.sources]
      | list l => simpa [Value.sources] using l.2
      | set s => simpa [Value.sources] using members_ne_nil s.2
      | zset z => simpa [Value.sources] using ranked_ne_nil z.2
      | stream =>
        cases hTable : m.tabletype <;> simp_all [Value.type, TableType.valueType]

theorem TableMap.rowsAt_eq_nil (hValid : m.Valid) (hVector : m.tabletype ≠ .vector) :
    m.rowsAt now ks n = .ok [] ↔ ¬m.HasRow ks n := by
  rw [rowsAt, HasRow, not_and]
  split_ifs with hOwns
  · rw [serverRows_eq hValid hVector, mapM_ok, List.forall₂_nil_right_iff, sources_eq_nil hVector]
    simp [hOwns]
  · simp [hOwns]

theorem TableMap.rowsAt_eq_row (hValid : m.Valid) (hVector : m.tabletype ≠ .vector) {row : Row} :
    m.rowsAt now ks n = .ok [row] ↔
      m.owns ks n = true ∧ ∃ s, m.sources (ks n) = [s] ∧ m.sourceRow now n s = .ok row := by
  rw [rowsAt]
  split_ifs with hOwns
  · rw [serverRows_eq hValid hVector, mapM_ok, List.forall₂_cons_right_iff, and_iff_right hOwns]
    simp only [List.forall₂_nil_right_iff]
    constructor
    · rintro ⟨s, _, hRow, rfl, hSources⟩
      exact ⟨s, hSources, hRow⟩
    · rintro ⟨s, hSources, hRow⟩
      exact ⟨s, [], hRow, rfl, hSources⟩
  · simp [hOwns]

end Rows

theorem TableMap.listed_of_hasRow {m : TableMap} (hValid : m.Valid) {ks : Keyspace} {n : Bytes}
    (h : m.HasRow ks n) : m.Listed ks none n := by
  obtain ⟨hOwns, hValue⟩ := h
  unfold owns at hOwns
  unfold Listed
  cases hKeyset : m.keyset with
  | none =>
    refine ⟨hValue, ?_⟩
    simp only [scanPrefix, hKeyset, Option.isSome_none, Bool.false_eq_true, if_false]
    cases hSingleton : m.singletonKey with
    | none => simpa [hSingleton, hKeyset] using hOwns
    | some s =>
      have hPrefix := (hValid.singleton.resolve_left (by simp [hSingleton])).1
      simp [hPrefix]
  | some s =>
    have hSingleton : m.singletonKey = none := by
      by_contra hSome
      simp [(hValid.singleton.resolve_left hSome).2] at hKeyset
    rw [hSingleton, hKeyset] at hOwns
    obtain ⟨members, hRead, hMem⟩ := Option.any_eq_true _ _ |>.mp hOwns
    exact ⟨members, hRead, of_decide_eq_true hMem⟩

theorem newest_of_unnamed {ops : List WriteOp} {relid : Nat} {n : Bytes}
    (h : ∀ op ∈ ops, n ∉ op.names) : newest relid n ops = none := by
  refine Option.eq_none_iff_forall_not_mem.mpr fun op hNewest => ?_
  obtain ⟨hOp, -, rfl⟩ := newest_spec hNewest
  exact h op hOp List.mem_cons_self

/-- The order of the program does not change which operation on a key is the newest. -/
theorem newest_byKey {ops : List WriteOp} {L : Ledger} (hFold : foldOps ops .empty = .ok L)
    (relid : Nat) (n : Bytes) : newest relid n (byKey ops) = newest relid n ops := by
  have hPick : ∀ l : List Bytes, lastWrite (fun k => if k = n then newest relid n ops else none) l =
      if n ∈ l then newest relid n ops else none := by
    intro l
    induction l with
    | nil => rfl
    | cons k l ih =>
      rw [lastWrite, ih]
      by_cases hk : k = n
      · subst hk
        by_cases hl : k ∈ l <;> simp [hl]
      · by_cases hl : n ∈ l <;> simp [hl, hk, Ne.symm hk]
  rw [newest, byKey, lastWrite_flatMap]
  refine (lastWrite_congr fun k _ => ?_).trans ((hPick _).trans ?_)
  · rw [lastWrite_filter]
    by_cases hk : k = n
    · subst hk
      rw [if_pos rfl, newest]
      refine lastWrite_congr fun op _ => ?_
      by_cases hKey : op.key = k <;> simp [hKey]
    · rw [if_neg hk, lastWrite_eq_none]
      intro op _
      by_cases hKey : op.key = k
      · simp [hKey, hk]
      · simp [hKey]
  · split_ifs with hn
    · rfl
    · -- A key that no operation names has no newest one.
      refine (Option.eq_none_iff_forall_not_mem.mpr fun op hNewest => hn ?_).symm
      obtain ⟨hOp, -, rfl⟩ := newest_spec hNewest
      have hKeys : L.keys = touchOrder ops := foldOps_keys hFold
      exact hKeys ▸ (foldOps_covers hFold).names op hOp _ List.mem_cons_self

/-! ## What is shown and what is left -/

/-- A complete scan comes to the key: the server lists it, or the transaction inserts it. -/
def TableMap.Reaches (m : TableMap) (ks : Keyspace) (buffer : List WriteOp) (n : Bytes) : Prop :=
  m.Listed ks none n ∨ ∃ op ∈ buffer, op.kind = .insert ∧ op.key = n

/-- Such a scan shows nothing under the key: the server has no row there, or the newest
operation on it is a DELETE, or the scan does not come to it. -/
def TableMap.Hidden (m : TableMap) (ks : Keyspace) (buffer ops : List WriteOp) (n : Bytes) : Prop :=
  match newest m.relid n ops with
  | none => ¬m.HasRow ks n
  | some op => op.kind = .delete ∨ ¬m.Reaches ks buffer n

/-- The key is one of the table's after the operations. -/
def TableMap.Stays (m : TableMap) (ks : Keyspace) (ops : List WriteOp) (n : Bytes) : Prop :=
  (m.keyset.bind fun _ => entryAfter ops n).getD (m.owns ks n) = true

section Agrees

variable [Doubles] [Listing] [Inputs] (m : TableMap) (now : Nat)

/-- The row that the operation shows is the only one of the value, and reads from it as it
was buffered. -/
def TableMap.OneRow (op : WriteOp) (e : Option Value) : Prop :=
  ∃ s row, m.sources e = [s] ∧ op.newtup = some row ∧ m.sourceRow now op.key s = .ok row

/-- The transaction shows under the key `n` what the commit leaves there, where `op` is the
last operation about the key and finds `e`. -/
structure TableMap.Agrees (ks : Keyspace) (buffer ops : List WriteOp) (n : Bytes) (op : WriteOp)
    (e : Option Value) : Prop where
  /-- A name that was renamed away shows nothing. -/
  moved : n ≠ op.key → m.Hidden ks buffer ops n
  /-- A row that is shown is the only one left. -/
  shown : n = op.key → ¬m.Hidden ks buffer ops n →
    m.Stays ks ops n ∧ m.OneRow now op (op.leaves now e)
  /-- Where none is shown, none is left. -/
  hidden : n = op.key → m.Hidden ks buffer ops n → m.Stays ks ops n → op.Empties e

end Agrees

section Shown

variable [Doubles] [Listing] [Inputs] {m : TableMap} {now cid : Nat} {ks : Keyspace}
  {buffer : List WriteOp} {n : Bytes} {pages : List (List Bytes)}

/-- The rows of a key in a scan of the whole keyspace. -/
def TableMap.shownAt (m : TableMap) (now : Nat) (ks : Keyspace) (buffer : List WriteOp) (cid : Nat)
    (pages : List (List Bytes)) (n : Bytes) : Except ReadError (List Row) :=
  readIn (m.pending now ks (visible cid buffer)) (m.reached now ks buffer cid (.keyspace none pages)) n

theorem TableMap.mem_reached_iff (hBuffer : ∀ op ∈ buffer, m.Buffers op)
    (hReads : (Access.keyspace none pages).Reads m ks fun _ => true) :
    n ∈ m.reached now ks buffer cid (.keyspace none pages) ↔ m.Listed ks none n ∨
      m.Reaches ks buffer n ∧
        ∃ op, newest m.relid n (visible cid buffer) = some op ∧ op.kind ≠ .delete := by
  have hRelid : (∃ op ∈ buffer, (op.relid = m.relid ∧ op.kind = .insert) ∧ op.key = n) ↔
      ∃ op ∈ buffer, op.kind = .insert ∧ op.key = n :=
    exists_congr fun op => and_congr_right fun hOp => by simp [(hBuffer op hOp).ofTable.1]
  have hPages : n ∈ (Access.pages m (.keyspace none pages)).flatten ↔ m.Listed ks none n :=
    hReads.2.2.2.1 n
  rw [mem_reached (newtup_of_buffers (fun op hOp _ => hBuffer op hOp) cid), hPages, hRelid, Reaches]
  tauto

/-- Without an operation on the key, the server's rows are shown. -/
theorem TableMap.shownAt_of_none (hValid : m.Valid) (hVector : m.tabletype ≠ .vector)
    (hBuffer : ∀ op ∈ buffer, m.Buffers op)
    (hReads : (Access.keyspace none pages).Reads m ks fun _ => true)
    (hNone : newest m.relid n (visible cid buffer) = none) :
    m.shownAt now ks buffer cid pages n = m.rowsAt now ks n := by
  rw [shownAt, readIn]
  split_ifs with hn
  · rw [pending, hNone]
    rfl
  · rw [eq_comm, rowsAt_eq_nil hValid hVector]
    exact fun h => hn ((mem_reached_iff hBuffer hReads).mpr (.inl (listed_of_hasRow hValid h)))

theorem TableMap.shownAt_of_reached (hBuffer : ∀ op ∈ buffer, m.Buffers op)
    (hReads : (Access.keyspace none pages).Reads m ks fun _ => true) {op : WriteOp}
    (hNewest : newest m.relid n (visible cid buffer) = some op) (hKind : op.kind ≠ .delete)
    (hReach : m.Reaches ks buffer n) :
    m.shownAt now ks buffer cid pages n = .ok op.newtup.toList := by
  rw [shownAt, readIn,
    if_pos ((mem_reached_iff hBuffer hReads).mpr (.inr ⟨hReach, op, hNewest, hKind⟩)), pending,
    hNewest]
  simp [WriteOp.left, hKind]

theorem TableMap.shownAt_eq_nil (hValid : m.Valid) (hVector : m.tabletype ≠ .vector)
    (hBuffer : ∀ op ∈ buffer, m.Buffers op)
    (hReads : (Access.keyspace none pages).Reads m ks fun _ => true) :
    m.shownAt now ks buffer cid pages n = .ok [] ↔ m.Hidden ks buffer (visible cid buffer) n := by
  unfold Hidden
  cases hNewest : newest m.relid n (visible cid buffer) with
  | none =>
    rw [shownAt_of_none hValid hVector hBuffer hReads hNewest, rowsAt_eq_nil hValid hVector]
  | some op =>
    constructor
    · intro hNil
      by_contra hShown
      rw [not_or, not_not] at hShown
      obtain ⟨hOp, -⟩ := newest_spec hNewest
      obtain ⟨_, row, -, hRender⟩ := (hBuffer op (List.mem_of_mem_filter hOp)).rendered hShown.1
      rw [shownAt_of_reached hBuffer hReads hNewest hShown.1 hShown.2, hRender.newtup] at hNil
      cases hNil
    · intro hHidden
      rw [shownAt, readIn]
      split_ifs with hn
      · have hReach := ((mem_reached_iff hBuffer hReads).mp hn).elim .inl And.left
        have hKind : op.kind = .delete := hHidden.resolve_right (not_not.mpr hReach)
        rw [pending, hNewest]
        simp [WriteOp.left, hKind]
      · rfl

/-- With a text key column, a row that is shown carries its key. -/
theorem TableMap.keyText_of_pending (hValid : m.Valid) (hText : m.TextKey)
    (hSingleton : m.singletonKey = none) (hBuffer : ∀ op ∈ buffer, m.Buffers op) {rows : List Row}
    (h : m.pending now ks (visible cid buffer) n = .ok rows) {row : Row} (hRow : row ∈ rows) :
    m.keyText row = some n := by
  rw [pending] at h
  cases hNewest : newest m.relid n (visible cid buffer) with
  | none =>
    rw [hNewest] at h
    exact keyText_of_mem_rowsAt hText (hValid.hasKey hSingleton) h hRow
  | some op =>
    rw [hNewest] at h
    cases h
    obtain ⟨hOp, -, rfl⟩ := newest_spec hNewest
    have hKind : op.kind ≠ .delete := fun hKind => by simp [WriteOp.left, hKind] at hRow
    obtain ⟨_, row', -, hRender⟩ := (hBuffer op (List.mem_of_mem_filter hOp)).rendered hKind
    obtain rfl : row = row' := by simpa [WriteOp.left, hKind, hRender.newtup] using hRow
    obtain ⟨⟨c, hSlot⟩, -⟩ := buildKey_ok hSingleton hRender.key
    rw [keyText, hSlot]

end Shown

/-- The operations of a table, and the keyspace that their commit makes of another. -/
structure TableMap.Applied [Doubles] (m : TableMap) (now : Nat) (ops : List WriteOp)
    (ks ks' : Keyspace) : Prop where
  valid : m.Valid
  vector : m.tabletype ≠ .vector
  table : ∀ op ∈ ops, OfTable m.tabletype m.legacyValue m.keyset op
  indexed : m.Indexed ks
  keyset : ∀ s, m.keyset = some s → m.owns ks s = false ∧ ∀ op ∈ ops, s ∉ op.names
  commit : ∃ L count, foldOps ops .empty = .ok L ∧ runProgram now L.plans ks = (.ok count, ks')

namespace TableMap.Applied

variable [Doubles] {m : TableMap} {now : Nat} {ops : List WriteOp} {ks ks' : Keyspace} {n : Bytes}
  {op : WriteOp} {e : Option Value} (h : m.Applied now ops ks ks')

include h

theorem owns_iff : m.owns ks' n = true ↔ m.Stays ks ops n := by
  obtain ⟨L, count, hFold, hOk⟩ := h.commit
  obtain ⟨-, -, hRun⟩ := runProgram_ok.mp hOk
  unfold Stays
  cases hKeyset : m.keyset with
  | none =>
    unfold owns
    rw [hKeyset]
    rfl
  | some s =>
    have hSingleton : m.singletonKey = none := by
      by_contra hSome
      simp [(h.valid.singleton.resolve_left hSome).2] at hKeyset
    obtain ⟨members, hRead⟩ := (sets.read_iff _).mpr (h.indexed s hKeyset)
    obtain ⟨members', hRead', hAfter⟩ := index_after hFold (OfTable.planTrace_byKey h.table hFold)
      (fun op hOp => (h.table op hOp).index.trans hKeyset) (h.keyset s hKeyset).2 hRun hRead
    simpa [owns, hSingleton, hKeyset, hRead, hRead'] using hAfter n

theorem exists_last (hNamed : ∃ op ∈ ops, n ∈ op.names) :
    ∃ op e, LastAbout now ks ops n op e := by
  obtain ⟨L, count, hFold, hOk⟩ := h.commit
  obtain ⟨-, -, hRun⟩ := runProgram_ok.mp hOk
  exact exists_lastAbout hFold (OfTable.planTrace_byKey h.table hFold) hRun hNamed

theorem left (hLast : LastAbout now ks ops n op e) :
    op ∈ ops ∧ HoldsType m.tabletype.valueType e ∧ HoldsType m.tabletype.valueType (ks' n) ∧
      ks' n = if n = op.key then op.leaves now e else none := by
  obtain ⟨L, count, hFold, hOk⟩ := h.commit
  have hOp := (hLast.mem hFold).1
  rw [← (h.table op hOp).type]
  exact ⟨hOp, hLast.left h.table (fun o ho n hn hs => (h.keyset n hs).2 o ho hn) h.indexed hFold hOk⟩

/-- The last operation about its own key is the newest there. -/
theorem newest_of_last (hRelid : ∀ op ∈ ops, op.relid = m.relid)
    (hLast : LastAbout now ks ops op.key op e) : newest m.relid op.key ops = some op := by
  obtain ⟨hOp, -⟩ := h.left hLast
  obtain ⟨L, -, hFold, -⟩ := h.commit
  obtain ⟨pre, post, cur, hSplit, -, hPost, -⟩ := hLast
  have hNone : newest m.relid op.key post = none := newest_of_unnamed hPost
  rw [newest] at hNone
  rw [← newest_byKey hFold, newest, hSplit, List.append_cons, lastWrite_append, hNone,
    Option.none_or, lastWrite_append]
  simp [lastWrite, hRelid op hOp]

variable [Listing] [Inputs]

theorem rowsAt_unnamed (hNames : ∀ op ∈ ops, n ∉ op.names) :
    m.rowsAt now ks' n = m.rowsAt now ks n := by
  obtain ⟨L, count, hFold, hOk⟩ := h.commit
  obtain ⟨-, -, hRun⟩ := runProgram_ok.mp hOk
  have hOwns : m.owns ks' n = m.owns ks n := by
    rw [Bool.eq_iff_iff, h.owns_iff, Stays, entryAfter_of_unnamed hFold hNames]
    cases m.keyset <;> rfl
  rw [rowsAt, rowsAt, hOwns]
  split_ifs with hMine
  · -- The keyset itself is no row of the table.
    refine serverRows_congr (key_unchanged (.foldOps hFold) hRun (fun op hOp hs => ?_) hNames)
    rw [(h.table op hOp).index] at hs
    simp [(h.keyset n hs).1] at hMine
  · rfl

theorem rowsAt_moved (hLast : LastAbout now ks ops n op e) (hKey : n ≠ op.key) :
    m.rowsAt now ks' n = .ok [] := by
  obtain ⟨-, -, -, hLeft⟩ := h.left hLast
  rw [rowsAt_eq_nil h.valid h.vector]
  rintro ⟨-, v, hv, -⟩
  simp [hLeft, hKey] at hv

theorem rowsAt_eq_nil (hLast : LastAbout now ks ops op.key op e) :
    m.rowsAt now ks' op.key = .ok [] ↔ (m.Stays ks ops op.key → op.Empties e) := by
  obtain ⟨hOp, hType, hHolds, hLeft⟩ := h.left hLast
  rw [if_pos rfl] at hLeft
  rw [← (h.table op hOp).type] at hType
  have hEmpties : op.leaves now e = none ↔ op.Empties e :=
    WriteOp.leaves_eq_none (h.table op hOp).supported hType
  rw [TableMap.rowsAt_eq_nil h.valid h.vector, HasRow, h.owns_iff, not_and, ← hEmpties, ← hLeft]
  refine imp_congr_right fun _ => ⟨fun hNot => ?_, ?_⟩
  · cases hValue : ks' op.key with
    | none => rfl
    | some v => exact absurd ⟨v, hValue, hHolds v hValue⟩ hNot
  · rintro hNone ⟨v, hv, -⟩
    simp [hNone] at hv

theorem rowsAt_eq_row (hLast : LastAbout now ks ops op.key op e) {row : Row}
    (hRow : op.newtup = some row) :
    m.rowsAt now ks' op.key = .ok [row] ↔
      m.Stays ks ops op.key ∧ m.OneRow now op (op.leaves now e) := by
  obtain ⟨-, -, -, hLeft⟩ := h.left hLast
  rw [if_pos rfl] at hLeft
  rw [TableMap.rowsAt_eq_row h.valid h.vector, h.owns_iff, hLeft, OneRow]
  simp [hRow]

end TableMap.Applied

/-! ## Agreement -/

section Agreement

variable [Doubles] [Listing] [Inputs] {m : TableMap} {now cid : Nat} {ks ks' : Keyspace}
  {buffer : List WriteOp} {n : Bytes} {op : WriteOp} {e : Option Value}

omit [Listing] [Inputs] in
theorem buffers_visible (hBuffer : ∀ op ∈ buffer, m.Buffers op) :
    ∀ op ∈ visible cid buffer, m.Buffers op :=
  fun op hOp => hBuffer op (List.mem_of_mem_filter hOp)

/-- Under the key of its last operation a scan shows the rows that the commit leaves exactly
if the operation agrees. -/
theorem TableMap.Applied.shown_iff (h : m.Applied now (visible cid buffer) ks ks')
    (hBuffer : ∀ op ∈ buffer, m.Buffers op) {pages : List (List Bytes)}
    (hReads : (Access.keyspace none pages).Reads m ks fun _ => true)
    (hLast : LastAbout now ks (visible cid buffer) n op e) :
    (∃ rows left, m.shownAt now ks buffer cid pages n = .ok rows ∧ m.rowsAt now ks' n = .ok left ∧
      rows.Perm left) ↔ m.Agrees now ks buffer (visible cid buffer) n op e := by
  have hOps : ∀ op ∈ visible cid buffer, m.Buffers op := buffers_visible hBuffer
  have hNil : m.shownAt now ks buffer cid pages n = .ok [] ↔ _ :=
    shownAt_eq_nil h.valid h.vector hBuffer hReads
  by_cases hKey : n = op.key
  · subst hKey
    by_cases hHidden : m.Hidden ks buffer (visible cid buffer) op.key
    · rw [hNil.mpr hHidden]
      have hLeft := h.rowsAt_eq_nil hLast
      constructor
      · rintro ⟨_, left, ⟨⟩, hRows, hPerm⟩
        rw [List.nil_perm] at hPerm
        exact ⟨fun hNe => absurd rfl hNe, fun _ hShown => absurd hHidden hShown,
          fun _ _ => hLeft.mp (hPerm ▸ hRows)⟩
      · intro hAgrees
        exact ⟨_, _, rfl, hLeft.mpr (hAgrees.hidden rfl hHidden), .refl _⟩
    · have hNewest := h.newest_of_last (fun op hOp => (hOps op hOp).ofTable.1) hLast
      obtain ⟨hKind, hReach⟩ : op.kind ≠ .delete ∧ m.Reaches ks buffer op.key := by
        simpa [Hidden, hNewest] using hHidden
      obtain ⟨_, row, -, hRender⟩ := (hOps op (h.left hLast).1).rendered hKind
      rw [shownAt_of_reached hBuffer hReads hNewest hKind hReach, hRender.newtup]
      have hLeft := h.rowsAt_eq_row hLast hRender.newtup
      constructor
      · rintro ⟨_, left, ⟨⟩, hRows, hPerm⟩
        rw [Option.toList_some, List.singleton_perm] at hPerm
        exact ⟨fun hNe => absurd rfl hNe, fun _ _ => hLeft.mp (hPerm ▸ hRows),
          fun _ hShown => absurd hShown hHidden⟩
      · intro hAgrees
        exact ⟨_, _, rfl, hLeft.mpr (hAgrees.shown rfl hHidden), .refl _⟩
  · rw [h.rowsAt_moved hLast hKey]
    constructor
    · rintro ⟨rows, _, hShown, ⟨⟩, hPerm⟩
      refine ⟨fun _ => hNil.mp ?_, fun hEq => absurd hEq hKey, fun hEq => absurd hEq hKey⟩
      rw [hShown, List.perm_nil.mp hPerm]
    · intro hAgrees
      exact ⟨_, _, hNil.mpr (hAgrees.moved hKey), rfl, .refl _⟩

omit [Doubles] in
/-- Where a key that is only updated had a row before, nothing is pending under a key that a
complete scan hides. -/
theorem TableMap.pending_of_hidden (hValid : m.Valid) (hVector : m.tabletype ≠ .vector)
    (hFound : m.Found now ks (visible cid buffer) n)
    (hHidden : m.Hidden ks buffer (visible cid buffer) n) :
    m.pending now ks (visible cid buffer) n = .ok [] := by
  unfold Hidden at hHidden
  rw [pending]
  cases hNewest : newest m.relid n (visible cid buffer) with
  | none =>
    rw [hNewest] at hHidden
    exact (rowsAt_eq_nil hValid hVector).mpr hHidden
  | some op =>
    rw [hNewest] at hHidden
    obtain ⟨hOp, -, hKey⟩ := newest_spec hNewest
    have hKind : op.kind = .delete := by
      by_contra hKind
      have hReach := hHidden.resolve_left hKind
      have hInsert : ∀ o ∈ visible cid buffer, o.key = n → o.kind ≠ .insert := fun o ho hKey hKind =>
        hReach (.inr ⟨o, List.mem_of_mem_filter ho, hKind, hKey⟩)
      have hUpdate : op.kind = .update := by
        cases hk : op.kind with
        | insert => exact absurd hk (hInsert op hOp hKey)
        | update => rfl
        | delete => exact absurd hk hKind
      refine hFound op hNewest hUpdate (fun o ho _ => hInsert o ho) ?_
      rw [rowsAt_eq_nil hValid hVector]
      exact fun h => hReach (.inl (listed_of_hasRow hValid h))
    simp [WriteOp.left, hKind]

/-- Then the operation that agrees has pending under its key what the commit leaves. -/
theorem TableMap.Applied.pending_eq (h : m.Applied now (visible cid buffer) ks ks')
    (hBuffer : ∀ op ∈ buffer, m.Buffers op) (hLast : LastAbout now ks (visible cid buffer) n op e)
    (hAgrees : m.Agrees now ks buffer (visible cid buffer) n op e)
    (hFound : m.Found now ks (visible cid buffer) n) :
    m.rowsAt now ks' n = m.pending now ks (visible cid buffer) n := by
  have hOps : ∀ op ∈ visible cid buffer, m.Buffers op := buffers_visible hBuffer
  by_cases hHidden : m.Hidden ks buffer (visible cid buffer) n
  · rw [pending_of_hidden h.valid h.vector hFound hHidden]
    by_cases hKey : n = op.key
    · subst hKey
      exact (h.rowsAt_eq_nil hLast).mpr (hAgrees.hidden rfl hHidden)
    · exact h.rowsAt_moved hLast hKey
  · obtain rfl : n = op.key := not_not.mp fun hKey => hHidden (hAgrees.moved hKey)
    have hNewest := h.newest_of_last (fun op hOp => (hOps op hOp).ofTable.1) hLast
    have hKind : op.kind ≠ .delete := fun hKind => hHidden (by simp [Hidden, hNewest, hKind])
    obtain ⟨_, row, -, hRender⟩ := (hOps op (h.left hLast).1).rendered hKind
    rw [(h.rowsAt_eq_row hLast hRender.newtup).mpr (hAgrees.shown rfl hHidden), pending, hNewest]
    simp [WriteOp.left, hKind, hRender.newtup]

theorem TableMap.Applied.select_iff (h : m.Applied now (visible cid buffer) ks ks')
    (hBuffer : ∀ op ∈ buffer, m.Buffers op) {pages pages' : List (List Bytes)} {after : List Row}
    (hText : m.TextKey) (hReads : (Access.keyspace none pages).Reads m ks fun _ => true)
    (hReads' : (Access.keyspace none pages').Reads m ks' fun _ => true)
    (hAfter : m.select now ks' [] cid (.keyspace none pages') (fun _ => true) = .ok after) :
    (∃ out, m.select now ks buffer cid (.keyspace none pages) (fun _ => true) = .ok out ∧
        out.Perm after) ↔
      ∀ n op e, LastAbout now ks (visible cid buffer) n op e →
        m.Agrees now ks buffer (visible cid buffer) n op e := by
  have hAll : ∀ x : Except ReadError (List Row), x.map (List.filter fun _ => true) = x := by
    intro x
    cases x <;> simp [Except.map]
  have hSingleton : m.singletonKey = none := hReads.1
  rw [select_nil hReads', hAll] at hAfter
  have hRest : ∀ k, k ∉ (Access.pages m (.keyspace none pages')).flatten →
      m.rowsAt now ks' k = .ok [] := by
    intro k hk
    rw [TableMap.rowsAt_eq_nil h.valid h.vector]
    exact fun hRow => hk ((hReads'.2.2.2.1 k).mpr (listed_of_hasRow h.valid hRow))
  -- The rows carry their keys, so that the two lists agree key by key.
  rw [select_eq_pending (fun op hOp _ => hBuffer op hOp) hReads, hAll,
    gather_tagged_iff (reached_nodup hReads) hReads'.nodup
      (fun _ _ _ hRows _ => keyText_of_pending h.valid hText hSingleton hBuffer hRows)
      (fun _ _ _ hRows _ => keyText_of_mem_rowsAt hText (h.valid.hasKey hSingleton) hRows) hRest
      hAfter]
  constructor
  · intro hKeys n op e hLast
    exact (h.shown_iff hBuffer hReads hLast).mp (hKeys n)
  · intro hAgrees n
    by_cases hn : ∃ op ∈ visible cid buffer, n ∈ op.names
    · obtain ⟨op, e, hLast⟩ := h.exists_last hn
      exact (h.shown_iff hBuffer hReads hLast).mpr (hAgrees n op e hLast)
    · push Not at hn
      obtain ⟨rows, hRows⟩ : ∃ rows, m.rowsAt now ks' n = .ok rows := by
        by_cases hk : n ∈ (Access.pages m (.keyspace none pages')).flatten
        · exact ⟨_, (gather_ok_iff.mp hAfter).1 n hk⟩
        · exact ⟨_, hRest n hk⟩
      refine ⟨rows, rows, ?_, hRows, .refl _⟩
      rw [← hRows, h.rowsAt_unnamed hn]
      exact shownAt_of_none h.valid h.vector hBuffer hReads (newest_of_unnamed hn)

theorem TableMap.Applied.select_lists (h : m.Applied now (visible cid buffer) ks ks')
    (hBuffer : ∀ op ∈ buffer, m.Buffers op)
    (hAgrees : ∀ n op e, LastAbout now ks (visible cid buffer) n op e →
      m.Agrees now ks buffer (visible cid buffer) n op e ∧ m.Found now ks (visible cid buffer) n)
    {a : Access} {q : Row → Bool} (hReads : a.Reads m ks q) :
    Lists (m.rowsAt now ks') q (m.select now ks buffer cid a q) := by
  refine select_lists_pending h.valid (fun op hOp _ => hBuffer op hOp) hReads (fun n => ?_)
    fun n => ?_
  · by_cases hn : ∃ op ∈ visible cid buffer, n ∈ op.names
    · obtain ⟨op, e, hLast⟩ := h.exists_last hn
      obtain ⟨hAgree, hFound⟩ := hAgrees n op e hLast
      exact h.pending_eq hBuffer hLast hAgree hFound
    · push Not at hn
      rw [h.rowsAt_unnamed hn, pending, newest_of_unnamed hn]
      rfl
  · intro o hNewest
    obtain ⟨hOp, -, rfl⟩ := newest_spec hNewest
    obtain ⟨op, e, hLast⟩ := h.exists_last ⟨o, hOp, List.mem_cons_self⟩
    exact (hAgrees _ op e hLast).2 o hNewest

end Agreement

/-- A complete scan inside the transaction returns the rows that one after the commit returns
if and only if the last operation about each key agrees; and then, where a key that is only
updated had a row before, so does every other scan. -/
theorem own_writes_iff [Doubles] [Listing] [Inputs] {m : TableMap} (hValid : m.Valid)
    (hWritable : m.writable .insert = true) {ks ks' : Keyspace} {buffer : List WriteOp}
    (hBuffer : ∀ op ∈ buffer, m.Buffers op) {now cid count : Nat} {L : Ledger}
    (hFold : foldOps (visible cid buffer) .empty = .ok L)
    (hCommit : runProgram now L.plans ks = (.ok count, ks')) (hIndexed : m.Indexed ks)
    (hKeyset : ∀ s, m.keyset = some s →
      m.owns ks s = false ∧ ∀ op ∈ visible cid buffer, s ∉ op.names) :
    (∀ pages pages' after, m.TextKey →
      (Access.keyspace none pages).Reads m ks (fun _ => true) →
      (Access.keyspace none pages').Reads m ks' (fun _ => true) →
      m.select now ks' [] cid (.keyspace none pages') (fun _ => true) = .ok after →
      ((∃ out, m.select now ks buffer cid (.keyspace none pages) (fun _ => true) = .ok out ∧
          out.Perm after) ↔
        ∀ n op e, LastAbout now ks (visible cid buffer) n op e →
          m.Agrees now ks buffer (visible cid buffer) n op e)) ∧
    ((∀ n op e, LastAbout now ks (visible cid buffer) n op e →
        m.Agrees now ks buffer (visible cid buffer) n op e ∧ m.Found now ks (visible cid buffer) n) →
      ∀ (a : Access) (q : Row → Bool), a.Reads m ks q →
        Lists (m.rowsAt now ks') q (m.select now ks buffer cid a q)) := by
  have hApplied : m.Applied now (visible cid buffer) ks ks' :=
    ⟨hValid, (TableMap.supported hValid hWritable).1,
      fun op hOp => (buffers_visible hBuffer op hOp).rowOp hValid hWritable, hIndexed, hKeyset, L,
      count, hFold, hCommit⟩
  exact ⟨fun _ _ _ hText hReads hReads' hAfter =>
      hApplied.select_iff hBuffer hText hReads hReads' hAfter,
    fun hAgrees _ _ hReads => hApplied.select_lists hBuffer hAgrees hReads⟩

/-! ## A set table -/

/-- The table `(k, member)` over every set. -/
def tagsDef : TableDef where
  relid := 1
  tabletype := .set
  columns := [{ key := true }, { member := true }]

/-- The map of the table. -/
def tags : TableMap where
  relid := 1
  cols := [⟨true, .key, none, .other, false⟩, ⟨true, .member, none, .other, false⟩]
  tabletype := .set
  keyprefix := none
  keyset := none
  singletonKey := none
  searchIndex := none
  legacyValue := false
  readonly := false

def tagRow (x : Bytes) : Row := [some (.scalar [1]), some (.scalar x)]

/-- The key 1 holds a set, and no other key anything. -/
def tagged (members : {s : Finset Bytes // s ≠ ∅}) : Keyspace :=
  Function.update (fun _ => none) [1] (some (.set members))

theorem tagRow_fits (x : Bytes) : tags.Fits (tagRow x) := by
  refine ⟨rfl, fun i c hc hKind => ?_⟩
  have hMem := List.mem_of_getElem? hc
  simp only [tags, List.mem_cons, List.not_mem_nil, or_false] at hMem
  rcases hMem with rfl | rfl <;> cases hKind

theorem tagged_reads [Inputs] (members : {s : Finset Bytes // s ≠ ∅}) :
    (Access.keyspace none [[[1]]]).Reads tags (tagged members) fun _ => true := by
  refine ⟨rfl, nofun, by decide, fun key => ?_, nofun⟩
  simp only [TableMap.Listed, tags, tagged]
  by_cases hk : key = [1] <;>
    simp [hk, Value.type, TableType.valueType, TableMap.scanPrefix]

theorem tagged_rowsAt [Listing] (x : Bytes) : letI := verbatim
    tags.rowsAt 0 (tagged ⟨{x}, Finset.singleton_ne_empty x⟩) [1] = .ok [tagRow x] := by
  let _ := verbatim
  have hValue : tagged ⟨{x}, Finset.singleton_ne_empty x⟩ [1] = some (.set ⟨{x}, _⟩) :=
    Function.update_self ..
  have hOwns : tags.owns (tagged ⟨{x}, Finset.singleton_ne_empty x⟩) [1] = true := rfl
  rw [TableMap.rowsAt, if_pos hOwns,
    TableMap.serverRows_set (@mapBuild_valid tagsDef tags rfl) rfl rfl hValue, Listing.members_singleton]
  rfl

theorem tagged_select [Listing] (x : Bytes) (cid : Nat) : letI := verbatim
    tags.select 0 (tagged ⟨{x}, Finset.singleton_ne_empty x⟩) [] cid (.keyspace none [[[1]]])
      (fun _ => true) = .ok [tagRow x] := by
  let _ := verbatim
  rw [TableMap.select_nil (tagged_reads _)]
  change (gather _ [[1]]).map _ = _
  rw [gather, tagged_rowsAt]
  rfl

def insertTag : WriteOp where
  kind := .insert
  relid := 1
  tabletype := .set
  cid := 0
  key := [1]
  member := some [2]
  newtup := some (tagRow [2])

/-- The first member of a set is seen before the commit. -/
theorem own_writes_iff_insertTag : letI := integerScores; letI := listingByName .resp2
    letI := verbatim
    ∃ L, foldOps (visible 1 [insertTag]) .empty = .ok L ∧
      runProgram 0 L.plans (fun _ => none) = (.ok 1, tagged ⟨{[2]}, by decide⟩) ∧
      ∃ out, tags.select 0 (fun _ => none) [insertTag] 1 (.keyspace none []) (fun _ => true) = .ok out ∧
        out.Perm [tagRow [2]] := by
  let _ := integerScores
  let _ := listingByName .resp2
  let _ := verbatim
  have hFold : ∃ L, foldOps (visible 1 [insertTag]) .empty = .ok L ∧
      runProgram 0 L.plans (fun _ => none) = (.ok 1, tagged ⟨{[2]}, by decide⟩) := ⟨_, rfl, rfl⟩
  obtain ⟨L, hFold, hCommit⟩ := hFold
  refine ⟨L, hFold, hCommit, ?_⟩
  have hBuffer : ∀ op ∈ [insertTag], tags.Buffers op := by
    intro op hOp
    obtain rfl := List.mem_singleton.mp hOp
    exact @TableMap.Buffers.insert integerScores _ ⟨0, 0⟩ (tagRow [2]) _ (tagRow_fits [2]) rfl
  have hNone : (Access.keyspace none []).Reads tags (fun _ => none) fun _ => true :=
    ⟨rfl, nofun, by decide, fun key => by simp [TableMap.Listed, tags], nofun⟩
  have hText : tags.TextKey := fun _ _ _ _ _ h => (Option.some.inj h).symm
  refine ((own_writes_iff (@mapBuild_valid tagsDef tags rfl) rfl hBuffer hFold hCommit
    (by rintro s ⟨⟩) (by rintro s ⟨⟩)).1 _ _ _ hText hNone (tagged_reads _) (tagged_select [2] 1)).mpr ?_
  intro n op e hLast
  obtain ⟨rfl, hn, rfl⟩ := hLast.singleton rfl
  obtain rfl : n = [1] := List.mem_singleton.mp hn
  have hShown : ¬tags.Hidden (fun _ => none) [insertTag] (visible 1 [insertTag]) [1] := by
    rintro (hKind | hReach)
    · cases hKind
    · exact hReach (.inr ⟨insertTag, by simp, rfl, rfl⟩)
  have hSources : tags.sources (some (.set ⟨{[2]}, by decide⟩)) = [.member [2]] := by
    simp [TableMap.sources, tags, Value.type, TableType.valueType, Value.sources,
      Listing.members_singleton]
  exact ⟨fun hNe => absurd rfl hNe, fun _ _ => ⟨rfl, _, _, hSources, rfl, rfl⟩,
    fun _ hHidden => absurd hHidden hShown⟩

/-- One key holds a note, and no other key anything. -/
def noteAt (key : Bytes) : Keyspace := Function.update (fun _ => none) key (some (.string [10]))

theorem noteAt_reads [Inputs] (key : Bytes) :
    (Access.keyspace none [[key]]).Reads notes (noteAt key) fun _ => true := by
  refine ⟨rfl, nofun, List.nodup_singleton key, fun k => ?_, nofun⟩
  simp only [TableMap.Listed, notes, noteAt]
  by_cases hk : k = key <;> simp [hk, Value.type, TableType.valueType, TableMap.scanPrefix]

/-- A set of two members loses one: the scan shows no row of the key any more, and the commit
leaves the other. A renamed key is shown under its old name and not under the new one. -/
theorem select_differs_from_commit : letI := integerScores; letI := listingByName .resp2
    letI := verbatim
    (∃ op L, mapBuild tagsDef = .ok tags ∧ tags.delete ⟨0, 0⟩ (tagRow [2]) = .ok op ∧
      foldOps [op] .empty = .ok L ∧
      runProgram 0 L.plans (tagged ⟨{[2], [3]}, by decide⟩) = (.ok 1, tagged ⟨{[3]}, by decide⟩) ∧
      (∀ members, (Access.keyspace none [[[1]]]).Reads tags (tagged members) fun _ => true) ∧
      tags.select 0 (tagged ⟨{[2], [3]}, by decide⟩) [op] 1 (.keyspace none [[[1]]]) (fun _ => true) =
        .ok [] ∧
      tags.select 0 (tagged ⟨{[3]}, by decide⟩) [] 1 (.keyspace none [[[1]]]) (fun _ => true) =
        .ok [tagRow [3]]) ∧
    ∃ op L, mapBuild notesDef = .ok notes ∧
      notes.update ⟨0, 0⟩ (noteRow [1] [10]) (noteRow [2] [10]) = .ok op ∧
      foldOps [op] .empty = .ok L ∧ runProgram 0 L.plans (noteAt [1]) = (.ok 2, noteAt [2]) ∧
      (∀ key, (Access.keyspace none [[key]]).Reads notes (noteAt key) fun _ => true) ∧
      notes.select 0 (noteAt [1]) [op] 1 (.keyspace none [[[1]]]) (fun _ => true) =
        .ok [noteRow [1] [10]] ∧
      notes.select 0 (noteAt [2]) [] 1 (.keyspace none [[[2]]]) (fun _ => true) =
        .ok [noteRow [2] [10]] := by
  let _ := verbatim
  refine ⟨⟨_, _, rfl, rfl, rfl, ?_, tagged_reads, rfl, @tagged_select (listingByName .resp2) [3] 1⟩,
    ⟨_, _, rfl, rfl, rfl, ?_, noteAt_reads, rfl, rfl⟩⟩
  · have hAfter : tagged ⟨{[3]}, by decide⟩ =
        Function.update (tagged ⟨{[2], [3]}, by decide⟩) [1] (some (.set ⟨{[3]}, by decide⟩)) :=
      (Function.update_idem ..).symm
    rw [hAfter]
    rfl
  · -- `RENAME`, and then `SET` of the value.
    have hAfter : noteAt [2] = Function.update (Function.update (Function.update (noteAt [1]) [1] none)
        [2] (some (.string [10]))) [2] (some (.string [10])) := by
      rw [Function.update_idem, noteAt, noteAt, Function.update_idem, Function.update_eq_self]
    rw [hAfter]
    rfl

end ValkeyFdw
