import ValkeyFdw.Refine.Index
import ValkeyFdw.Scan.Pending
import ValkeyFdw.Scan.Stored

/-!
# Reading one's own writes: string tables

A transaction that writes a string table and has not committed yet scans the
server through the overlay. If every operation it may see finds its row, or its
key absent for an INSERT, the scan returns what the table would hold after
executing those operations in order (`string_scan_exact`). The newest operation
of a key decides on both sides: it is the last to write the key, and the overlay
answers with its row.
-/

namespace ValkeyFdw

open Server Trace Gather

/-- The table has a row under the key. -/
def TableMap.HasRow (m : TableMap) (ks : Keyspace) (key : Bytes) : Prop :=
  m.owns ks key = true ∧ ∃ v, ks key = some v ∧ v.type = m.tabletype.valueType

/-- An INSERT finds its key absent, an UPDATE or DELETE finds its row. -/
def TableMap.Legal (m : TableMap) (cur : Keyspace) (op : WriteOp) : Prop :=
  if op.kind = .insert then cur op.key = none else m.HasRow cur op.key

/-! ## The operations of a string table -/

/-- What the write path knows of an operation of a string table that leaves its
key in its place. -/
structure TableMap.StringOp (m : TableMap) (op : WriteOp) : Prop where
  relid : op.relid = m.relid
  tabletype : op.tabletype = .string
  shape : op.packedShape = false
  keyset : op.keyset = m.keyset
  stays : op.isRename = false
  row : op.kind ≠ .delete → ∃ row c c' v, op.newtup = some row ∧ m.Fits row ∧
    m.slot .key row = some (c, some (.scalar op.key)) ∧
    m.slot .value row = some (c', some (.scalar v)) ∧ op.value = some v ∧
    m.keyprefix.all (fun p => p.isPrefixOf op.key) = true ∧ m.keyset ≠ some op.key

theorem TableMap.Buffers.stringOp [Doubles] {m : TableMap} (hValid : m.Valid)
    (hType : m.tabletype = .string) (hSingleton : m.singletonKey = none)
    (hValue : ∃ c ∈ m.cols, c.kind = .value) {op : WriteOp} (h : m.Buffers op)
    (hStay : op.isRename = false) : m.StringOp op := by
  obtain ⟨hRelid, hTabletype, hShape, hKeyset⟩ := h.ofTable
  have hMapped : m.legacyValue = false :=
    Bool.eq_false_iff.mpr fun hLegacy => (hValid.packed hLegacy).1 hType
  refine ⟨hRelid, hTabletype.trans hType, hShape.trans hMapped, hKeyset, hStay, fun hKind => ?_⟩
  obtain ⟨stamp, row, hFits, hRender⟩ := h.rendered hKind
  obtain ⟨⟨c, hKey⟩, hPrefix, hne⟩ := buildKey_ok hSingleton hRender.key
  obtain ⟨⟨c', d⟩, hSlot⟩ := Option.isSome_iff_exists.mp ((slot_isSome hFits.length).mpr hValue)
  have hRequired := hRender.value hMapped (by simp [hType])
  rw [hSlot] at hRequired
  obtain ⟨v, hv, hText⟩ := renderRequired_ok renderText_ok hRequired
  obtain rfl : d = some (.scalar v) := hText
  exact ⟨row, c, c', v, hRender.newtup, hFits, hKey, hSlot, hv, hPrefix, hne⟩

/-! ## Reading a string back -/

theorem TableMap.Valid.stringKinds {m : TableMap} (hValid : m.Valid)
    (hType : m.tabletype = .string) {c : Column} (hc : c ∈ m.cols) :
    c.kind = .key ∨ c.kind = .value ∨ c.kind = .dropped := by
  have hMapped : m.legacyValue = false :=
    Bool.eq_false_iff.mpr fun hLegacy => (hValid.packed hLegacy).1 hType
  have hKinds := hValid.kinds hMapped hc
  simp only [hType] at hKinds
  tauto

section Read

variable [Listing] [Inputs] {m : TableMap} {now : Nat} {ks ks' : Keyspace} {key : Bytes}

/-- The server's answers about a key depend on that key only, unless the keyset is asked. -/
theorem TableMap.serverRows_congr (h : ks' key = ks key) :
    m.serverRows now false ks' key = m.serverRows now false ks key := by
  have hReplies : m.takeReplies now false ks' key = m.takeReplies now false ks key := by
    simp [takeReplies, h]
  rw [serverRows, serverRows, hReplies]

theorem TableMap.serverRows_string_ne_nil (hType : m.tabletype = .string) {v : Bytes}
    (h : ks key = some (.string v)) : m.serverRows now false ks key ≠ .ok [] := by
  rw [serverRows_string hType h]
  cases m.fill key (m.takeReplies now false ks key).ttls (.string v) 0 <;> simp [Except.map]

/-- The row that was written is the row that is read. -/
theorem TableMap.serverRows_written (hValid : m.Valid) (hType : m.tabletype = .string) {row : Row}
    {c c' : Column} {v : Bytes} (hFits : m.Fits row) (hSurvives : m.Survives row)
    (hKey : m.slot .key row = some (c, some (.scalar key)))
    (hValue : m.slot .value row = some (c', some (.scalar v)))
    (h : ks key = some (.string v)) : m.serverRows now false ks key = .ok [row] := by
  have hMapped : m.legacyValue = false :=
    Bool.eq_false_iff.mpr fun hLegacy => (hValid.packed hLegacy).1 hType
  rw [serverRows_string hType h]
  suffices hFill : m.fill key (m.takeReplies now false ks key).ttls (.string v) 0 = .ok row by
    rw [hFill]
    rfl
  refine fill_ok.mpr ⟨hFits.length, fun i c₀ hc₀ => ?_⟩
  rcases hValid.stringKinds hType (List.mem_of_getElem? hc₀) with hKind | hKind | hKind
  · obtain ⟨hKind', j, hc, hd⟩ := slot_spec hKey
    obtain rfl := (hValid.mapped hMapped).1.key hc₀ hc hKind hKind'
    refine ⟨_, hd, ?_⟩
    simp only [fillColumn, hKind]
    exact storeText_eq (hSurvives i c₀ key hc₀ hd)
  · obtain ⟨hKind', j, hc, hd⟩ := slot_spec hValue
    obtain rfl := hValid.roles .value rfl hc₀ hc hKind hKind'
    refine ⟨_, hd, ?_⟩
    simp only [fillColumn, hKind]
    exact storeText_eq (hSurvives i c₀ v hc₀ hd)
  · refine ⟨none, hFits.dropped i c₀ hc₀ hKind, ?_⟩
    simp only [fillColumn, hKind]

end Read

/-! ## One operation -/

/-- A legal operation of a string table does not touch the table's index as a row. -/
theorem TableMap.StringOp.key_ne_keyset {m : TableMap} {cur : Keyspace} {op : WriteOp}
    (hOp : m.StringOp op) (hType : m.tabletype = .string) (hIndexed : m.Indexed cur)
    (hLegal : m.Legal cur op) : op.keyset ≠ some op.key := by
  rw [hOp.keyset]
  by_cases hKind : op.kind = .delete
  · intro hKeyset
    rw [Legal, if_neg (by simp [hKind])] at hLegal
    obtain ⟨-, v, hv, hString⟩ := hLegal
    have hSet := hIndexed op.key hKeyset v hv
    rw [hSet, hType] at hString
    cases hString
  · obtain ⟨-, -, -, -, -, -, -, -, -, -, hne⟩ := hOp.row hKind
    exact hne

section Step

variable [Doubles] {m : TableMap} {now : Nat} {cur cur' : Keyspace} {op : WriteOp}

theorem TableMap.StringOp.run_body (hOp : m.StringOp op) :
    ∃ mid, run (execStep now) (op.body.map fun a => (op.key, a)) cur = .ok mid ∧
      mid op.key = if op.kind = .delete then none else op.value.map Value.string := by
  by_cases hKind : op.kind = .delete
  · have hDel : op.deletesKey = true := by simp [WriteOp.deletesKey, hKind, hOp.tabletype]
    simp only [WriteOp.body, hDel, if_true, List.map_cons, List.map_nil, run_singleton, hKind]
    exact ⟨_, rfl, Function.update_self ..⟩
  · obtain ⟨-, -, -, v, -, -, -, -, hv, -⟩ := hOp.row hKind
    have hDel : op.deletesKey = false := by simp [WriteOp.deletesKey, hKind]
    have hBody : op.body = [.set v] := by
      simp [WriteOp.body, hDel, hOp.shape, WriteOp.shapeActions, hOp.tabletype, hv]
    rw [hBody, if_neg hKind, hv]
    simp only [List.map_cons, List.map_nil, run_singleton]
    exact ⟨_, rfl, Function.update_self ..⟩

/-- A legal operation of a string table can be taken, and keeps the index a set. -/
theorem TableMap.StringOp.exec (hOp : m.StringOp op) (hType : m.tabletype = .string)
    (hIndexed : m.Indexed cur) (hLegal : m.Legal cur op) :
    ∃ cur', op.exec now cur = .ok cur' ∧ op.Effect now cur cur' ∧ m.Indexed cur' ∧
      cur' op.key = if op.kind = .delete then none else op.value.map Value.string := by
  have hne := hOp.key_ne_keyset hType hIndexed hLegal
  have hSet : ∀ s, op.keyset = some s → HoldsType .set (cur s) :=
    fun s hs => hIndexed s (hOp.keyset ▸ hs)
  obtain ⟨mid, hBody, hMid⟩ := @TableMap.StringOp.run_body _ m now cur op hOp
  obtain ⟨cur', hExec⟩ := WriteOp.exec_of_body hOp.stays hne hSet hBody
  have hEffect := WriteOp.exec_effect hOp.stays hne hExec hSet
  refine ⟨cur', hExec, hEffect, fun s hs => ?_, ?_⟩
  · obtain ⟨members, hRead⟩ := (sets.read_iff _).mpr (hIndexed s hs)
    exact (sets.read_iff _).mp ⟨_, hEffect.index s members (hOp.keyset.trans hs) hRead⟩
  · obtain ⟨mid', hBody', hSame⟩ := hEffect.own
    rw [hBody, Except.ok.injEq] at hBody'
    rw [hSame, ← hBody', hMid]

/-- An operation does not change which other keys the table owns. -/
theorem TableMap.owns_of_effect (hKeyset : op.keyset = m.keyset) (hIndexed : m.Indexed cur)
    (hEffect : op.Effect now cur cur') {k : Bytes} (hk : k ≠ op.key) :
    m.owns cur' k = m.owns cur k := by
  unfold owns
  cases m.singletonKey with
  | some s => rfl
  | none =>
    dsimp only
    cases hs : m.keyset with
    | none => rfl
    | some s =>
      obtain ⟨members, hRead⟩ := (sets.read_iff _).mpr (hIndexed s hs)
      simp only [hRead, hEffect.index s members (hKeyset.trans hs) hRead, Option.any_some,
        WriteOp.index_mem_of_ne hk]

variable [Listing] [Inputs]

/-- A legal operation leaves its own row under its key, and changes no other row. -/
theorem TableMap.StringOp.rowsAt (hValid : m.Valid) (hType : m.tabletype = .string)
    (hSingleton : m.singletonKey = none) (hOp : m.StringOp op)
    (hSurvives : ∀ row, op.newtup = some row → m.Survives row)
    (hIndexed : m.Indexed cur) (hLegal : m.Legal cur op) (hEffect : op.Effect now cur cur')
    (hIndexed' : m.Indexed cur')
    (hOwn : cur' op.key = if op.kind = .delete then none else op.value.map Value.string)
    (k : Bytes) :
    m.rowsAt now cur' k =
      ((if op.key = k then some (.ok op.left) else none).getD (m.rowsAt now cur k)) := by
  by_cases hk : op.key = k
  · subst hk
    rw [if_pos rfl, Option.getD_some]
    by_cases hKind : op.kind = .delete
    · rw [if_pos hKind] at hOwn
      rw [WriteOp.left, if_pos hKind, TableMap.rowsAt, serverRows_eq_nil (by simp [hOwn]), ite_self]
    · obtain ⟨row, c, c', v, hTup, hFits, hKey, hValue, hv, hPrefix, hne⟩ := hOp.row hKind
      rw [if_neg hKind, hv] at hOwn
      have hOwns : m.owns cur' op.key = true := by
        unfold owns
        rw [hSingleton]
        dsimp only
        cases hs : m.keyset with
        | none => exact hPrefix
        | some s =>
          obtain ⟨members, hRead⟩ := (sets.read_iff _).mpr (hIndexed s hs)
          have hDel : op.deletesKey = false := by simp [WriteOp.deletesKey, hKind]
          dsimp only
          rw [hEffect.index s members (hOp.keyset.trans hs) hRead, Option.any_some,
            decide_eq_true_eq, WriteOp.index, if_neg (by simp [hDel])]
          split
          · exact Finset.mem_insert_self ..
          · rename_i hInsert
            rw [Legal, if_neg hInsert] at hLegal
            simpa [owns, hSingleton, hs, hRead] using hLegal.1
      rw [TableMap.rowsAt, if_pos hOwns, WriteOp.left, if_neg hKind, hTup]
      exact serverRows_written hValid hType hFits (hSurvives row hTup) hKey hValue hOwn
  · rw [if_neg hk, Option.getD_none, TableMap.rowsAt, TableMap.rowsAt,
      owns_of_effect hOp.keyset hIndexed hEffect (Ne.symm hk)]
    by_cases hIndex : m.keyset = some k
    · -- The keyset itself is a set before and after, and so never a row of a string table.
      have hNone : ∀ {ks : Keyspace}, m.Indexed ks → m.serverRows now false ks k = .ok [] := by
        refine fun h => serverRows_eq_nil fun v hv hString => ?_
        rw [h k hIndex v hv, hType] at hString
        cases hString
      rw [hNone hIndexed, hNone hIndexed']
    · rw [serverRows_congr (hEffect.frame k (Ne.symm hk) (hOp.keyset ▸ hIndex))]

/-- The rows of the table after a run of legal operations are those of the newest
operation of each key. -/
theorem strings_run (hValid : m.Valid) (hType : m.tabletype = .string)
    (hSingleton : m.singletonKey = none) {ops : List WriteOp} (hOps : ∀ op ∈ ops, m.StringOp op)
    (hSurvives : ∀ op ∈ ops, ∀ row, op.newtup = some row → m.Survives row) {ks : Keyspace}
    (hIndexed : m.Indexed ks) (hLegal : Along (WriteOp.exec now) m.Legal ops ks) :
    ∃ ks', execOps now ops ks = .ok ks' ∧ ∀ k, m.rowsAt now ks' k =
      (lastWrite (fun op : WriteOp => if op.key = k then some (.ok op.left) else none) ops).getD
        (m.rowsAt now ks k) := by
  obtain ⟨ks', hRun, -, hRows⟩ := Along.run_lastWrite (I := m.Indexed) (g := m.rowsAt now)
    (w := fun k (op : WriteOp) => if op.key = k then some (.ok op.left) else none)
    (fun op hOp cur hIndexed hLegal => by
      obtain ⟨cur', hExec, hEffect, hIndexed', hOwn⟩ := (hOps op hOp).exec hType hIndexed hLegal
      exact ⟨cur', hExec, hIndexed', (hOps op hOp).rowsAt hValid hType hSingleton
        (hSurvives op hOp) hIndexed hLegal hEffect hIndexed' hOwn⟩) hIndexed hLegal
  exact ⟨ks', hRun, hRows⟩

omit [Listing] [Inputs] in
theorem hasRow_of_not_inserted (hType : m.tabletype = .string) {ops : List WriteOp}
    (hOps : ∀ op ∈ ops, m.StringOp op) {ks : Keyspace} (hIndexed : m.Indexed ks)
    (hLegal : Along (WriteOp.exec now) m.Legal ops ks) {k : Bytes}
    (hTouched : ∃ op ∈ ops, op.key = k) (hNot : ∀ op ∈ ops, op.key = k → op.kind ≠ .insert) :
    m.HasRow ks k := by
  induction ops generalizing ks with
  | nil => simp at hTouched
  | cons op ops ih =>
    rw [List.forall_mem_cons] at hOps hNot
    by_cases hk : op.key = k
    · have hHead := hLegal.1
      rw [TableMap.Legal, if_neg (hNot.1 hk), hk] at hHead
      exact hHead
    · obtain ⟨cur', hExec, hEffect, hIndexed', -⟩ :=
        @TableMap.StringOp.exec _ m now ks op hOps.1 hType hIndexed
        hLegal.1
      have hTouched' : ∃ op' ∈ ops, op'.key = k := by
        obtain ⟨o, ho, hKey⟩ := hTouched
        rcases List.mem_cons.mp ho with rfl | ho
        · exact absurd hKey hk
        · exact ⟨o, ho, hKey⟩
      obtain ⟨hOwns, v, hv, hString⟩ := ih hOps.2 hIndexed' (hLegal.2 cur' hExec) hTouched' hNot.2
      have hIndex : op.keyset ≠ some k := by
        intro hs
        rw [hIndexed' k (hOps.1.keyset ▸ hs) v hv, hType] at hString
        cases hString
      rw [TableMap.owns_of_effect hOps.1.keyset hIndexed hEffect (Ne.symm hk)] at hOwns
      rw [hEffect.frame k (Ne.symm hk) hIndex] at hv
      exact ⟨hOwns, v, hv, hString⟩

end Step

/-! ## The scan -/

/-- A scan of a string table by any command returns the rows the table would hold
after executing, in order, the operations that the command may see. -/
theorem string_scan_exact [Doubles] [Listing] [Inputs] {t : TableDef} {m : TableMap}
    (hMap : mapBuild t = .ok m) (hType : m.tabletype = .string)
    (hValue : ∃ c ∈ m.cols, c.kind = .value) {ks : Keyspace} {buffer : List WriteOp}
    (hBuffer : ∀ op ∈ buffer, m.Buffers op ∧ op.isRename = false) {now cid : Nat}
    (hLegal : Along (WriteOp.exec now) m.Legal (visible cid buffer) ks)
    (hSurvives : ∀ op ∈ visible cid buffer, ∀ row, op.newtup = some row → m.Survives row)
    {a : Access} (hStrategy : ∀ key, a ≠ .singleton key) {q : Row → Bool} (hReads : a.Reads m ks q) :
    ∃ ks', execOps now (visible cid buffer) ks = .ok ks' ∧
      Lists (m.rowsAt now ks') q (m.select now ks buffer cid a q) := by
  have hValid := mapBuild_valid hMap
  have hSingleton : m.singletonKey = none := by
    cases a with
    | keyspace => exact hReads.1
    | keys => exact hReads.1
    | singleton key => exact absurd rfl (hStrategy key)
  have hIndexed : m.Indexed ks := by
    cases a with
    | keyspace => exact hReads.2.1
    | keys => exact hReads.2.1
    | singleton key => exact absurd rfl (hStrategy key)
  have hAll : ∀ op ∈ buffer, m.StringOp op := fun op hOp =>
    (hBuffer op hOp).1.stringOp hValid hType hSingleton hValue (hBuffer op hOp).2
  have hSub : ∀ op ∈ visible cid buffer, op ∈ buffer := fun op hOp => (List.mem_filter.mp hOp).1
  have hOps : ∀ op ∈ visible cid buffer, m.StringOp op := fun op hOp => hAll op (hSub op hOp)
  obtain ⟨ks', hExec, hRows⟩ := strings_run hValid hType hSingleton hOps hSurvives hIndexed hLegal
  refine ⟨ks', hExec, ?_⟩
  refine TableMap.select_lists_pending hValid (fun op hOp _ => (hBuffer op hOp).1) hReads ?_ ?_
  · intro k
    rw [hRows, lastWrite_left fun op hOp => (hOps op hOp).relid]
    rfl
  · intro k op hNewest _ hNot hNil
    obtain ⟨hOp, -, rfl⟩ := newest_spec hNewest
    obtain ⟨hOwns, w, hw, hString⟩ := hasRow_of_not_inserted hType hOps hIndexed hLegal
      ⟨op, hOp, rfl⟩ fun o ho hKey => hNot o ho (hOps o ho).relid hKey
    rw [TableMap.rowsAt, if_pos hOwns] at hNil
    rw [hType] at hString
    cases w with
    | string data => exact TableMap.serverRows_string_ne_nil hType hw hNil
    | _ => cases hString

/-- The table `(k, v)` over every string key. -/
def notesDef : TableDef where
  relid := 1
  columns := [{ key := true }, {}]

def notes : TableMap where
  relid := 1
  cols := [⟨true, .key, none, .other, false⟩, ⟨true, .value, none, .other, false⟩]
  tabletype := .string
  keyprefix := none
  keyset := none
  singletonKey := none
  searchIndex := none
  legacyValue := false
  readonly := false

def noteRow (k v : Bytes) : Row := [some (.scalar k), some (.scalar v)]

/-- The server holds the key 1; the transaction rewrote it and added the key 2. -/
def oneNote : Keyspace := fun k => if k = [1] then some (.string [10]) else none

def noteWrites : List WriteOp :=
  [{ kind := .update, relid := 1, tabletype := .string, cid := 0, key := [1], oldkey := some [1],
     value := some [11], newtup := some (noteRow [1] [11]) },
   { kind := .insert, relid := 1, tabletype := .string, cid := 1, key := [2], value := some [12],
     newtup := some (noteRow [2] [12]) }]

theorem noteWrites_buffered : letI := integerScores
    ∀ op ∈ noteWrites, notes.Buffers op ∧ op.isRename = false := by
  have hFits : ∀ k v, notes.Fits (noteRow k v) := by
    refine fun k v => ⟨rfl, fun i c hc hKind => ?_⟩
    have hMem := List.mem_of_getElem? hc
    simp only [notes, List.mem_cons, List.not_mem_nil, or_false] at hMem
    rcases hMem with rfl | rfl <;> cases hKind
  intro op hOp
  simp only [noteWrites, List.mem_cons, List.not_mem_nil, or_false] at hOp
  rcases hOp with rfl | rfl
  · exact ⟨@TableMap.Buffers.update integerScores _ ⟨0, 0⟩ (noteRow [1] [10])
      (noteRow [1] [11]) _ (hFits _ _) (hFits _ _) rfl, rfl⟩
  · exact ⟨@TableMap.Buffers.insert integerScores _ ⟨1, 0⟩ (noteRow [2] [12]) _ (hFits _ _) rfl, rfl⟩

theorem string_scan_exact_notes : letI := integerScores; letI := listingByName .resp2
    letI := verbatim
    ∃ ks', execOps 0 (visible 2 noteWrites) oneNote = .ok ks' ∧
      Lists (notes.rowsAt 0 ks') (fun _ => true)
        (notes.select 0 oneNote noteWrites 2 (.keyspace none [[], [[1]]]) fun _ => true) := by
  refine @string_scan_exact integerScores (listingByName .resp2) verbatim notesDef notes rfl rfl
    ⟨⟨true, .value, none, .other, false⟩, by simp [notes], rfl⟩ _ _ noteWrites_buffered _ _ ?_
    (fun _ _ _ _ _ _ _ _ _ => rfl) _ (by simp) _ ⟨rfl, nofun, by decide, fun key => ?_, nofun⟩
  · refine ⟨⟨rfl, _, rfl, rfl⟩, fun cur hCur => ⟨?_, fun _ _ => trivial⟩⟩
    cases hCur
    rfl
  · simp only [TableMap.Listed, notes, oneNote]
    by_cases hk : key = [1] <;> simp [hk, Value.type, TableType.valueType, TableMap.scanPrefix]

end ValkeyFdw
