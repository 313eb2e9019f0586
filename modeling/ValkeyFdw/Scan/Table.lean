import ValkeyFdw.Refine.Sequential
import ValkeyFdw.Scan.Overlay

/-!
# The rows of a table

A table owns the keys under its prefix, in its keyset, or its one key, and
`rowsAt` is what it holds under each of them. The planner reads them by walking
the keyspace, by fetching the keys a restriction names, or by fetching the one
key of a singleton table; the restriction itself stays with the executor as a
recheck. A key that an access path does not fetch has no row that passes it
(`Access.Reads.misses`).
-/

namespace ValkeyFdw

open Gather

namespace TableMap

variable (m : TableMap)

/-- Whether a key is one of the table's. -/
def owns (ks : Keyspace) (key : Bytes) : Bool :=
  match m.singletonKey with
  | some s => key = s
  | none =>
    match m.keyset with
    | some s => (sets.read (ks s)).any fun members => decide (key ∈ members)
    | none => m.keyprefix.all fun p => p.isPrefixOf key

/-- The rows the table holds under a key. -/
def rowsAt [Listing] [Inputs] (now : Nat) (ks : Keyspace) (key : Bytes) :
    Except ReadError (List Row) :=
  if m.owns ks key then m.serverRows now false ks key else .ok []

/-- The table's keyset, if it has one, is a set. -/
def Indexed (ks : Keyspace) : Prop := ∀ s, m.keyset = some s → HoldsType .set (ks s)

/-- The text of a row's key column. -/
def keyText (row : Row) : Option Bytes :=
  match m.slot .key row with
  | some (_, some (.scalar b)) => some b
  | _ => none

/-- The key column reads the bytes of a key as they are. -/
def TextKey [Inputs] : Prop :=
  ∀ c ∈ m.cols, c.kind = .key → ∀ b b', Inputs.read c b = some b' → b' = b

/-! ## Access paths -/

/-- The literal prefix of the `MATCH` pattern: that of the table, or that of a
`LIKE` where it extends the table's. -/
def scanPrefix (like : Option Bytes) : Option Bytes :=
  if m.keyset.isSome then none
  else match like, m.keyprefix with
    | some l, some p => if p.isPrefixOf l then some l else some p
    | some l, none => some l
    | none, p => p

/-- What the server lists: the members of the keyset, or the keys of the table's
type under the prefix. -/
def Listed (ks : Keyspace) (like : Option Bytes) (key : Bytes) : Prop :=
  match m.keyset with
  | some s => ∃ members, sets.read (ks s) = some members ∧ key ∈ members
  | none => (∃ v, ks key = some v ∧ v.type = m.tabletype.valueType) ∧
      (m.scanPrefix like).all (fun p => p.isPrefixOf key) = true

/-- The named keys, without repeats and without those outside the table's prefix. -/
def refineKeys : List Bytes → List Bytes → List Bytes
  | [], result => result
  | key :: keys, result =>
    if (m.keyprefix.any fun p => !p.isPrefixOf key) || key ∈ result then refineKeys keys result
    else refineKeys keys (result ++ [key])

end TableMap

/-- How a scan finds its keys. The pages are those the server cuts its listing into. -/
inductive Access where
  | keyspace (like : Option Bytes) (pages : List (List Bytes))
  | keys (named : List Bytes)
  | singleton (key : Bytes)

namespace Access

variable (m : TableMap)

def pages : Access → List (List Bytes)
  | .keyspace _ pages => pages
  | .keys named => [m.refineKeys named []]
  | .singleton key => [[key]]

/-- Whether the plan named the keys. -/
def named : Access → Bool
  | .keys _ => true
  | .keyspace .. | .singleton _ => false

/-- The access path fits the table, the keyspace and the recheck: the server
lists every key once, and a restriction that narrowed the path is rechecked. -/
def Reads [Inputs] (ks : Keyspace) (q : Row → Bool) : Access → Prop
  | .keyspace like pages => m.singletonKey = none ∧ m.Indexed ks ∧ pages.flatten.Nodup ∧
      (∀ key, key ∈ pages.flatten ↔ m.Listed ks like key) ∧
      ∀ l, like = some l → m.TextKey ∧
        ∀ row, q row = true → ∃ b, m.keyText row = some b ∧ l.isPrefixOf b = true
  | .keys named => m.singletonKey = none ∧ m.Indexed ks ∧ m.TextKey ∧
      ∀ row, q row = true → ∃ b ∈ named, m.keyText row = some b
  | .singleton key => m.singletonKey = some key

end Access

section Select

variable [Listing] [Inputs] (m : TableMap) (now : Nat) (ks : Keyspace)

/-- A query of the table by the command `cid`: the scan and the executor's recheck. -/
def TableMap.select (buffer : List WriteOp) (cid : Nat) (a : Access) (q : Row → Bool) :
    Except ReadError (List Row) :=
  (Scan.run ⟨m.relid, cid, buffer, m.serverRows now a.named ks⟩ (a.pages m)).map (List.filter q)

end Select

/-! ## Keys without rows -/

theorem onRead_of_read {T : Type} {C : Collection T} {answer : T → Resp} {e : Option Value} {t : T}
    (h : C.read e = some t) : Server.onRead C answer e = answer t := by
  rw [Server.onRead, h]

theorem onRead_wrongType {T : Type} {C : Collection T} {answer : T → Resp} {v : Value}
    (h : v.type ≠ C.type) : Server.onRead C answer (some v) = .wrongType := by
  unfold Server.onRead
  split
  · rfl
  · rename_i t ht
    exact absurd (holdsType_some.mp ((C.read_iff _).mp ⟨t, ht⟩)) h

section Rows

variable [Listing]

theorem Listing.members_empty : members ∅ = [] :=
  List.eq_nil_iff_forall_not_mem.mpr fun _ hx => by simpa using mem_members.mp hx

theorem Listing.ranked_empty : ranked ∅ = [] :=
  List.eq_nil_iff_forall_not_mem.mpr fun _ hx => Finmap.notMem_empty (mem_ranked.mp hx)

theorem TableMap.valueCommand_wrongType {m : TableMap} {v : Value}
    (h : v.type ≠ m.tabletype.valueType) : m.valueCommand (some v) = .wrongType := by
  have hGet : v.type ≠ .string → Server.get (some v) = .wrongType := by
    intro hString
    cases v <;> first | rfl | exact absurd rfl hString
  unfold valueCommand
  cases hType : m.tabletype <;> rw [hType] at h
  case string | vector => exact hGet h
  case list | set => exact onRead_wrongType h
  case hash | zset =>
    dsimp only
    split <;> exact onRead_wrongType h

/-- The answers about a key that does not exist. -/
theorem TableMap.producesNothing_of_absent {m : TableMap} {now : Nat} {named : Bool} {ks : Keyspace}
    {key : Bytes} (h : ks key = none) :
    m.producesNothing (m.takeReplies now named ks key) = true := by
  simp only [producesNothing, takeReplies, h, Bool.or_eq_true]
  cases hType : m.tabletype with
  | string | vector =>
    refine .inl (.inr ?_)
    simp [valueCommand, hType, Server.get, Resp.isSkippable]
  | hash =>
    refine .inr ?_
    have hRead : hashes.read none = some ∅ := rfl
    by_cases hHmget : m.hmget = true
    · simp [isAbsent, valueCommand, hType, hHmget, Server.hmget, Server.hlen, onRead_of_read hRead,
        takeLength]
    · have hGetall : m.valueCommand none = Server.container .map [] := by
        simp [valueCommand, hType, hHmget, Server.hgetall, onRead_of_read hRead,
          Listing.members_empty]
      rw [hGetall, Server.container]
      cases Listing.protocol <;> simp [isAbsent, hType, hHmget]
  | list =>
    refine .inr ?_
    have hRead : lists.read none = some [] := rfl
    simp [isAbsent, valueCommand, hType, hmget, Server.lrange, onRead_of_read hRead]
  | set =>
    refine .inr ?_
    have hRead : sets.read none = some ∅ := rfl
    have hMembers : m.valueCommand none = Server.container .set [] := by
      simp [valueCommand, hType, Server.smembers, onRead_of_read hRead, Listing.members_empty]
    rw [hMembers, Server.container]
    cases Listing.protocol <;> simp [isAbsent, hType, hmget]
  | zset =>
    refine .inr ?_
    have hRanked : m.valueCommand none = .array [] := by
      have hRead : zsets.read none = some ∅ := rfl
      simp only [valueCommand, hType]
      split
      · rw [Server.zrange, onRead_of_read hRead, Listing.ranked_empty]
        rfl
      · rw [Server.zrangeWithScores, onRead_of_read hRead, Listing.ranked_empty]
        cases Listing.protocol <;> rfl
    simp [isAbsent, hRanked, hType, hmget]

variable [Inputs] {m : TableMap} {now : Nat} {named : Bool} {ks : Keyspace} {key : Bytes}

theorem TableMap.serverRows_eq_nil
    (h : ∀ v, ks key = some v → v.type ≠ m.tabletype.valueType) :
    m.serverRows now named ks key = .ok [] := by
  suffices hNothing : m.producesNothing (m.takeReplies now named ks key) = true by
    rw [serverRows, emit, if_pos hNothing]
  cases hValue : ks key with
  | none => exact producesNothing_of_absent hValue
  | some v =>
    simp [producesNothing, takeReplies, hValue, valueCommand_wrongType (h v hValue),
      Resp.isSkippable]

/-- Asking the keyset makes a difference only if it answers: then a key that is not
in it has no row. -/
theorem TableMap.serverRows_asked : m.serverRows now true ks key =
    if (m.keyset.bind fun s => sets.read (ks s)).all fun members => decide (key ∈ members) then
      m.serverRows now false ks key
    else .ok [] := by
  cases hKeyset : m.keyset with
  | none => simp [serverRows, takeReplies, hKeyset]
  | some s =>
    cases hRead : sets.read (ks s) with
    | none =>
      have hMember : takeMember (Server.sismember key (ks s)) = none := by
        simp [Server.sismember, Server.onRead, hRead, takeMember]
      simp [serverRows, takeReplies, hKeyset, hRead, hMember]
    | some members =>
      have hMember : (m.takeReplies now true ks key).member = some (decide (key ∈ members)) := by
        simp only [takeReplies, hKeyset, if_true, Server.sismember, onRead_of_read hRead]
        by_cases hMem : key ∈ members <;> simp [takeMember, hMem]
      by_cases hMem : key ∈ members
      · simp only [Option.bind_some, hRead, Option.all_some, hMem, decide_true, if_true]
        have hSame : m.producesNothing (m.takeReplies now true ks key) =
            m.producesNothing (m.takeReplies now false ks key) := by
          simp only [producesNothing, hMember, hMem]
          simp [takeReplies, hKeyset, isAbsent]
        rw [serverRows, serverRows, emit, emit, hSame]
        rfl
      · simp only [Option.bind_some, hRead, Option.all_some, hMem, decide_false, Bool.false_eq_true,
          if_false]
        have hNothing : m.producesNothing (m.takeReplies now true ks key) = true := by
          simp [producesNothing, hMember, hMem]
        rw [serverRows, emit, if_pos hNothing]

/-- A key named by the plan has the rows the table holds under it: the keyset was
asked, and the prefix was checked before. -/
theorem TableMap.serverRows_named (hSingleton : m.singletonKey = none) (hIndexed : m.Indexed ks)
    (hPrefix : m.keyprefix.all (fun p => p.isPrefixOf key) = true) :
    m.serverRows now true ks key = m.rowsAt now ks key := by
  rw [serverRows_asked]
  unfold rowsAt owns
  rw [hSingleton]
  cases hKeyset : m.keyset with
  | none => simp [hPrefix]
  | some s =>
    obtain ⟨members, hRead⟩ := (sets.read_iff _).mpr (hIndexed s hKeyset)
    simp [hRead]

theorem TableMap.keyText_of_mem (hText : m.TextKey) (hKey : ∃ c ∈ m.cols, c.kind = .key)
    {rows : List Row} (h : m.serverRows now named ks key = .ok rows) {row : Row} (hRow : row ∈ rows) :
    m.keyText row = some key := by
  obtain ⟨elem, hFill⟩ := mem_emit h hRow
  obtain ⟨hLength, hCols⟩ := fill_ok.mp hFill
  obtain ⟨⟨c, d⟩, hSlot⟩ := Option.isSome_iff_exists.mp ((slot_isSome hLength).mpr hKey)
  obtain ⟨hKind, i, hc, hd⟩ := slot_spec hSlot
  obtain ⟨d', hd', hColumn⟩ := hCols i c hc
  simp only [fillColumn, hKind] at hColumn
  obtain ⟨b, hRead, rfl⟩ := storeText_ok hColumn
  rw [hd, Option.some.injEq] at hd'
  rw [keyText, hSlot, hd', hText c (List.mem_of_getElem? hc) hKind key b hRead]

theorem TableMap.keyText_of_mem_rowsAt (hText : m.TextKey) (hKey : ∃ c ∈ m.cols, c.kind = .key)
    {rows : List Row} (h : m.rowsAt now ks key = .ok rows) {row : Row} (hRow : row ∈ rows) :
    m.keyText row = some key := by
  unfold rowsAt at h
  split at h
  · exact keyText_of_mem hText hKey h hRow
  · cases h
    cases hRow

/-! ## Access paths and the table's rows -/

omit [Listing] [Inputs] in
theorem TableMap.mem_refineKeys {keys result : List Bytes} :
    key ∈ m.refineKeys keys result ↔ key ∈ result ∨
      (key ∈ keys ∧ m.keyprefix.all (fun p => p.isPrefixOf key) = true) := by
  have hOutside : ∀ k, (m.keyprefix.any fun p => !p.isPrefixOf k) = true ↔
      ¬m.keyprefix.all (fun p => p.isPrefixOf k) = true := by
    intro k
    cases m.keyprefix with
    | none => simp
    | some p => cases hp : p.isPrefixOf k <;> simp [hp]
  induction keys generalizing result with
  | nil => simp [refineKeys]
  | cons k keys ih =>
    rw [refineKeys]
    split
    · rename_i hSkip
      rw [Bool.or_eq_true, hOutside, decide_eq_true_eq] at hSkip
      refine ih.trans ?_
      grind
    · rename_i hTake
      rw [Bool.or_eq_true, hOutside, decide_eq_true_eq, not_or, not_not] at hTake
      refine ih.trans ?_
      grind

omit [Listing] [Inputs] in
theorem TableMap.refineKeys_nodup {keys result : List Bytes} (h : result.Nodup) :
    (m.refineKeys keys result).Nodup := by
  induction keys generalizing result with
  | nil => exact h
  | cons k keys ih =>
    rw [refineKeys]
    split
    · exact ih h
    · rename_i hTake
      simp only [Bool.or_eq_true, decide_eq_true_eq, not_or] at hTake
      refine ih (List.nodup_append.mpr ⟨h, by simp, ?_⟩)
      rintro x hx y hy rfl
      exact hTake.2 (List.mem_singleton.mp hy ▸ hx)

omit [Listing] [Inputs] in
/-- A key that has the pattern's prefix has the table's. -/
theorem TableMap.prefix_of_scanPrefix {like : Option Bytes} (hKeyset : m.keyset = none)
    (h : (m.scanPrefix like).all (fun p => p.isPrefixOf key) = true) :
    m.keyprefix.all (fun p => p.isPrefixOf key) = true := by
  unfold scanPrefix at h
  rw [hKeyset, if_neg (by simp)] at h
  cases hPrefix : m.keyprefix with
  | none => rfl
  | some p =>
    rw [hPrefix] at h
    cases like with
    | none => exact h
    | some l =>
      dsimp only at h
      split at h
      · rename_i hl
        rw [Option.all_some, List.isPrefixOf_iff_prefix] at h ⊢
        exact (List.isPrefixOf_iff_prefix.mp hl).trans h
      · exact h

variable {a : Access} {q : Row → Bool}

omit [Listing] in
theorem Access.Reads.nodup (h : a.Reads m ks q) : (a.pages m).flatten.Nodup := by
  cases a with
  | keyspace like pages => exact h.2.2.1
  | keys names => simpa [pages] using TableMap.refineKeys_nodup List.nodup_nil
  | singleton k => simp [pages]

/-- For every key an access path fetches it reads the rows the table holds. -/
theorem Access.Reads.rowsAt_of_mem (h : a.Reads m ks q) (hKey : key ∈ (a.pages m).flatten) :
    m.serverRows now a.named ks key = m.rowsAt now ks key := by
  cases a with
  | keyspace like pages =>
    obtain ⟨hSingleton, -, -, hListed, -⟩ := h
    have hOwns : m.owns ks key = true := by
      have hKey := (hListed key).mp hKey
      unfold TableMap.Listed at hKey
      unfold TableMap.owns
      rw [hSingleton]
      cases hKeyset : m.keyset with
      | none =>
        rw [hKeyset] at hKey
        exact m.prefix_of_scanPrefix hKeyset hKey.2
      | some s =>
        rw [hKeyset] at hKey
        obtain ⟨members, hRead, hMem⟩ := hKey
        simp [hRead, hMem]
    rw [TableMap.rowsAt, if_pos hOwns]
    rfl
  | keys names =>
    obtain ⟨hSingleton, hIndexed, -, -⟩ := h
    simp only [pages, List.flatten_cons, List.flatten_nil, List.append_nil,
      TableMap.mem_refineKeys, List.not_mem_nil, false_or] at hKey
    exact m.serverRows_named hSingleton hIndexed hKey.2
  | singleton k =>
    obtain rfl : key = k := by simpa [pages] using hKey
    have hOwns : m.owns ks key = true := by simp [TableMap.owns, show m.singletonKey = _ from h]
    rw [TableMap.rowsAt, if_pos hOwns]
    rfl

/-- A key that an access path does not fetch has no row, or none that passes the recheck. -/
theorem Access.Reads.misses (h : a.Reads m ks q) (hPrefix : m.keyprefix = none ∨ m.keyset = none)
    (hKey : key ∉ (a.pages m).flatten) :
    m.rowsAt now ks key = .ok [] ∨
      (m.TextKey ∧ ∀ row, m.keyText row = some key → q row = false) := by
  have hOwned : (m.owns ks key = true → m.serverRows now false ks key = .ok [] ∨
      (m.TextKey ∧ ∀ row, m.keyText row = some key → q row = false)) →
      m.rowsAt now ks key = .ok [] ∨
        (m.TextKey ∧ ∀ row, m.keyText row = some key → q row = false) := by
    intro hRows
    unfold TableMap.rowsAt
    split
    · rename_i hOwns
      exact hRows hOwns
    · exact .inl rfl
  refine hOwned fun hOwns => ?_
  cases a with
  | keyspace like pages =>
    obtain ⟨hSingleton, -, -, hListed, hLike⟩ := h
    have hKey := mt (hListed key).mpr hKey
    unfold TableMap.Listed at hKey
    unfold TableMap.owns at hOwns
    rw [hSingleton] at hOwns
    cases hKeyset : m.keyset with
    | some s =>
      rw [hKeyset] at hKey hOwns
      obtain ⟨members, hRead, hMem⟩ := Option.any_eq_true _ _ |>.mp hOwns
      exact absurd ⟨members, hRead, of_decide_eq_true hMem⟩ hKey
    | none =>
      rw [hKeyset] at hKey hOwns
      by_cases hType : ∃ v, ks key = some v ∧ v.type = m.tabletype.valueType
      · -- The key is of the table's type, so it is the pattern that leaves it out.
        refine .inr ?_
        have hPattern := fun hp => hKey ⟨hType, hp⟩
        unfold TableMap.scanPrefix at hPattern
        rw [hKeyset, if_neg (by simp)] at hPattern
        cases like with
        | none => exact absurd hOwns hPattern
        | some l =>
          obtain ⟨hText, hRecheck⟩ := hLike l rfl
          refine ⟨hText, fun row hRow => Bool.eq_false_iff.mpr fun hq => hPattern ?_⟩
          obtain ⟨b, hb, hl⟩ := hRecheck row hq
          rw [hRow, Option.some.injEq] at hb
          subst hb
          cases hPrefix : m.keyprefix with
          | none => exact hl
          | some p =>
            rw [hPrefix] at hOwns
            dsimp only
            split
            · exact hl
            · exact hOwns
      · exact .inl (TableMap.serverRows_eq_nil fun v hv ht => hType ⟨v, hv, ht⟩)
  | keys names =>
    obtain ⟨hSingleton, hIndexed, hText, hRecheck⟩ := h
    simp only [pages, List.flatten_cons, List.flatten_nil, List.append_nil,
      TableMap.mem_refineKeys, List.not_mem_nil, false_or] at hKey
    have hInside : m.keyprefix.all (fun p => p.isPrefixOf key) = true := by
      rcases hPrefix with hNone | hNone
      · simp [hNone]
      · simpa [TableMap.owns, hSingleton, hNone] using hOwns
    refine .inr ⟨hText, fun row hRow => Bool.eq_false_iff.mpr fun hq => ?_⟩
    obtain ⟨b, hb, hText⟩ := hRecheck row hq
    rw [hRow, Option.some.injEq] at hText
    exact hKey ⟨hText ▸ hb, hInside⟩
  | singleton k =>
    have hne : key ≠ k := by simpa [pages] using hKey
    simp [TableMap.owns, show m.singletonKey = _ from h, hne] at hOwns

/-- No row of a key that an access path does not fetch passes the recheck. -/
theorem Access.Reads.rechecked (h : a.Reads m ks q) (hValid : m.Valid)
    (hKey : key ∉ (a.pages m).flatten) {rows : List Row} (hRows : m.rowsAt now ks key = .ok rows)
    {row : Row} (hRow : row ∈ rows) : q row = false := by
  have hMisses : m.rowsAt now ks key = .ok [] ∨ _ := h.misses hValid.prefixOrKeyset hKey
  rcases hMisses with hNil | ⟨hText, hRecheck⟩
  · cases hRows.symm.trans hNil
    cases hRow
  · cases hSingleton : m.singletonKey with
    | none => exact hRecheck row (m.keyText_of_mem_rowsAt hText (hValid.hasKey hSingleton) hRows hRow)
    | some s =>
      -- The one key of a singleton table is fetched by every access path it has.
      have hOwns : m.owns ks key = true := by
        by_contra hNot
        rw [TableMap.rowsAt, if_neg hNot] at hRows
        cases hRows
        cases hRow
      cases a with
      | keyspace => simp [h.1] at hSingleton
      | keys => simp [h.1] at hSingleton
      | singleton k =>
        have hne : key ≠ k := by simpa [pages] using hKey
        simp [TableMap.owns, show m.singletonKey = _ from h, hne] at hOwns

theorem TableMap.select_nil (hReads : a.Reads m ks q) (cid : Nat) : m.select now ks [] cid a q =
    (gather (m.rowsAt now ks) (a.pages m).flatten).map (List.filter q) := by
  rw [select, Scan.run_eq]
  have hTail : Scan.tailKeys ⟨m.relid, cid, [], m.serverRows now a.named ks⟩ []
      (a.pages m).flatten.reverse = [] := rfl
  rw [hTail, List.append_nil, gather_congr (g := m.rowsAt now ks) fun k hk => ?_]
  exact hReads.rowsAt_of_mem hk

theorem TableMap.select_lists (hValid : m.Valid) (hReads : a.Reads m ks q) (cid : Nat) :
    Lists (m.rowsAt now ks) q (m.select now ks [] cid a q) := by
  rw [select_nil hReads]
  exact Lists.of_gather hReads.nodup fun k hk rows hRows row hRow =>
    hReads.rechecked hValid hk hRows hRow

end Rows

end ValkeyFdw
