import Mathlib.Data.List.ReduceOption
import ValkeyFdw.Refine.Body
import ValkeyFdw.Scan.Stored

/-!
# An inserted row read back

An INSERT into a name that holds nothing creates a value out of the columns of
its row. A later scan returns the row, each column read back from what it was
written as, if the row has a column that the type of the table stores anything
for, and if no column is written over by a later one of the same field name
(`insert_creates_iff`). A table without such a column accepts the row, reports it
and writes nothing.
-/

namespace ValkeyFdw

open Server Trace Gather

/-! ## Writing and reading back -/

/-- What a scalar is written as; NULL is not written. -/
def writtenText : Option Datum → Option Bytes
  | some (.scalar b) => some b
  | _ => none

/-- The elements an array is written as. -/
def writtenElems : Option Datum → List Bytes
  | some (.array _ elems) => elems.reduceOption
  | _ => []

/-- The milliseconds an interval is written as. -/
def writtenMs (c : Column) : Option Datum → Option Nat
  | some (.interval month day time) => (renderInterval c month day time).toOption
  | _ => none

section ReadBack

variable [Doubles] [Listing] [Inputs] (m : TableMap)

/-- The collection an array denotes, as the server lists it. -/
def TableMap.repack (packed : List Bytes) : List Bytes :=
  (packedValue m.tabletype packed).elim [] Value.elems

/-- The value `d'` of a column is `d` written and read back, `elapsed` milliseconds
later. A singleton table fills in the key that a row left out, and a list the place
of an element. -/
def TableMap.readsBack (elapsed : Nat) (c : Column) (d d' : Option Datum) : Prop :=
  match c.kind with
  | .key => d = none ∨ storeText c (writtenText d) = .ok d'
  | .value | .field | .member => storeText c (writtenText d) = .ok d'
  | .score => storeText c ((writtenText d).bind Doubles.canon) = .ok d'
  | .legacyValue => storePacked c (.array ((m.repack (writtenElems d)).map .string)) = .ok d'
  | .ttl => d' = (writtenMs c d).map fun ms => .interval 0 0 (((ms : Int) - elapsed) * 1000)
  | .position => True
  | .distance | .dropped => d' = none

/-- The row `row'` is `row` read back column by column. -/
def TableMap.ReadsBack (elapsed : Nat) (row row' : Row) : Prop :=
  row'.length = m.cols.length ∧
    ∀ (i : Nat) (c : Column) (d d' : Option Datum), m.cols[i]? = some c → row[i]? = some d →
      row'[i]? = some d' → m.readsBack elapsed c d d'

/-- The table has the row under the key and nothing else, and every scan that the
row passes returns it. -/
def TableMap.Creates (now elapsed : Nat) (ks : Keyspace) (key : Bytes) (row : Row) : Prop :=
  ∃ row', m.rowsAt now ks key = .ok [row'] ∧ m.ReadsBack elapsed row row' ∧
    ∀ (cid : Nat) (a : Access) (q : Row → Bool) (rows : List Row), a.Reads m ks q →
      m.select now ks [] cid a q = .ok rows → q row' = true → row' ∈ rows

/-- The input functions accept what their output functions printed. -/
structure TableMap.Readable (row : Row) : Prop where
  text : ∀ (i : Nat) (c : Column) (b : Bytes), m.cols[i]? = some c →
    row[i]? = some (some (.scalar b)) → (Inputs.read c b).isSome
  elems : ∀ (i : Nat) (c : Column) (n : Nat) (elems : List (Option Bytes)), m.cols[i]? = some c →
    row[i]? = some (some (.array n elems)) → ∀ b, some b ∈ elems → (Inputs.read c b).isSome

end ReadBack

/-! ## Rows that keep their columns -/

/-- The columns that the value of a key is made of. -/
def TableType.payload : TableType → ColKind
  | .string => .value
  | .hash | .vector => .field
  | .list | .set | .zset => .member

section Keeps

variable (m : TableMap) (row : Row)

namespace TableMap

/-- What the last column of a field is written as. -/
def lastField (f : Bytes) : Option (Option Bytes) :=
  lastWrite (fun x : Slot =>
    if x.1.kind = .field ∧ x.1.field = f then some (writtenText x.2) else none) (m.slots row)

def lastTtl (f : Bytes) : Option (Option Nat) :=
  lastWrite (fun x : Slot =>
    if x.1.kind = .ttl ∧ x.1.field = f then some (writtenMs x.1 x.2) else none) (m.slots row)

/-- The expiry that a field of the row ends up with: none if the row does not set the field. -/
def expiry (f : Bytes) : Option Nat :=
  match m.lastField row f with
  | some (some _) => (m.lastTtl row f).join
  | _ => none

/-- The row has something to store: a column of the table's payload, or an array
that is not empty. -/
def HasPayload : Prop :=
  if m.legacyValue then ∃ c d, m.slot .legacyValue row = some (c, d) ∧ writtenElems d ≠ []
  else ∃ c ∈ m.cols, c.kind = m.tabletype.payload

/-- The number that the server makes of a score can be read into its column. -/
def ScoresKept [Doubles] [Inputs] : Prop :=
  ∀ x ∈ m.slots row, x.1.kind = .score → ∀ s, (writtenText x.2).bind Doubles.canon = some s →
    (Inputs.read x.1 s).isSome

/-- A field column reads from the last column of its name what it would from itself. -/
def FieldsKept [Inputs] : Prop :=
  ∀ x ∈ m.slots row, x.1.kind = .field → ∀ text, m.lastField row x.1.field = some text →
    storeText x.1 text = storeText x.1 (writtenText x.2)

/-- A ttl column gives the expiry of a field the row sets, the last of its name. -/
def TtlsKept (elapsed : Nat) : Prop :=
  ∀ x ∈ m.slots row, x.1.kind = .ttl → m.expiry row x.1.field = writtenMs x.1 x.2 ∧
    ∀ ms, writtenMs x.1 x.2 = some ms → ms ≤ (2 ^ 63 - 1) / 1000 + elapsed

/-- Every column of the row has a place of its own in what is written. -/
structure Keeps [Doubles] [Inputs] (elapsed : Nat) : Prop where
  payload : m.HasPayload row
  /-- A key that the row leaves out can be read into its column. -/
  key : ∀ s c, m.singletonKey = some s → m.slot .key row = some (c, none) →
    (Inputs.read c s).isSome
  scores : m.ScoresKept row
  fields : m.FieldsKept row
  ttls : m.TtlsKept row elapsed

variable {m row}

theorem lastField_isSome {x : Slot} (hx : x ∈ m.slots row) (hKind : x.1.kind = .field) :
    ∃ text, m.lastField row x.1.field = some text := by
  rw [← Option.isSome_iff_exists, Option.isSome_iff_ne_none]
  intro hNone
  have hOwn := lastWrite_eq_none.mp hNone x hx
  simp [hKind] at hOwn

theorem mem_of_lastField {f : Bytes} {text : Option Bytes}
    (h : m.lastField row f = some text) :
    ∃ x ∈ m.slots row, x.1.kind = .field ∧ writtenText x.2 = text := by
  obtain ⟨x, hx, hWrite⟩ := exists_of_lastWrite h
  split_ifs at hWrite with hField
  exact ⟨x, hx, hField.1, Option.some.inj hWrite⟩

theorem mem_of_expiry {f : Bytes} {ms : Nat} (h : m.expiry row f = some ms) :
    ∃ x ∈ m.slots row, x.1.kind = .ttl ∧ writtenMs x.1 x.2 = some ms := by
  unfold expiry at h
  split at h
  · obtain ⟨x, hx, hWrite⟩ := exists_of_lastWrite (Option.join_eq_some_iff.mp h)
    split_ifs at hWrite with hTtl
    exact ⟨x, hx, hTtl.1, Option.some.inj hWrite⟩
  · cases h

end TableMap

end Keeps

/-! ## Sources of created values -/

section Sources

variable [Listing] {m : TableMap}

theorem Listing.ranked_singleton (x y : Bytes) : ranked (Finmap.insert x y ∅) = [x] := by
  refine List.perm_singleton.mp ((List.perm_ext_iff_of_nodup (ranked_nodup _) (by simp)).mpr ?_)
  intro z
  rw [mem_ranked, Finmap.mem_insert, List.mem_singleton, or_iff_left Finmap.notMem_empty]

theorem TableMap.sources_hash (hMapped : m.legacyValue = false) (hType : m.tabletype = .hash)
    (h : Fields) : m.sources (hashes.write h) = if h = ∅ then [] else [.hash h] := by
  by_cases hEmpty : h = ∅
  · subst hEmpty
    rfl
  · have hWrite : hashes.write h = some (.hash ⟨h, hEmpty⟩) := dif_neg hEmpty
    rw [hWrite, if_neg hEmpty, sources]
    simp [Value.type, TableType.valueType, hType, hMapped, Value.sources]

theorem TableMap.sources_list (hMapped : m.legacyValue = false) (hType : m.tabletype = .list)
    (l : List Bytes) : m.sources (lists.write l) = l.mapIdx fun i x => .element x i := by
  by_cases hEmpty : l = []
  · subst hEmpty
    rfl
  · have hWrite : lists.write l = some (.list ⟨l, hEmpty⟩) := dif_neg hEmpty
    rw [hWrite, sources]
    simp [Value.type, TableType.valueType, hType, hMapped, Value.sources]

theorem TableMap.sources_set (hMapped : m.legacyValue = false) (hType : m.tabletype = .set)
    (s : Finset Bytes) : m.sources (sets.write s) = (Listing.members s).map .member := by
  by_cases hEmpty : s = ∅
  · subst hEmpty
    rw [Listing.members_empty]
    rfl
  · have hWrite : sets.write s = some (.set ⟨s, hEmpty⟩) := dif_neg hEmpty
    rw [hWrite, sources]
    simp [Value.type, TableType.valueType, hType, hMapped, Value.sources]

theorem TableMap.sources_zset (hMapped : m.legacyValue = false) (hType : m.tabletype = .zset)
    (z : Scores) : m.sources (zsets.write z) =
      (Listing.ranked z).map fun x => .scored x ((z.lookup x).getD []) := by
  by_cases hEmpty : z = ∅
  · subst hEmpty
    rw [Listing.ranked_empty]
    rfl
  · have hWrite : zsets.write z = some (.zset ⟨z, hEmpty⟩) := dif_neg hEmpty
    rw [hWrite, sources]
    simp [Value.type, TableType.valueType, hType, hMapped, Value.sources]

/-- A packed row is there exactly if its array holds anything. -/
theorem TableMap.sources_packed (hPacked : m.legacyValue = true)
    (hType : m.tabletype = .list ∨ m.tabletype = .set ∨ m.tabletype = .hash) {packed : List Bytes}
    (hEven : m.tabletype = .hash → packed.length % 2 = 0) :
    m.sources (packedValue m.tabletype packed) =
      if packed = [] then [] else [.packed (m.repack packed)] := by
  have hNone : packedValue m.tabletype packed = none ↔ packed = [] := by
    rw [packedValue_eq_none (by tauto)]
    split_ifs with hHash
    · have hEven := hEven hHash
      rw [← List.length_eq_zero_iff]
      omega
    · rfl
  unfold repack
  cases hValue : packedValue m.tabletype packed with
  | none => rw [if_pos (hNone.mp hValue)]; rfl
  | some v =>
    have hTyped : v.type = m.tabletype.valueType := by
      have hHolds : ∀ {T : Type} (C : Collection T) (t : T), C.write t = some v → v.type = C.type :=
        fun C t h => C.holdsType_write t v h
      rcases hType with hType | hType | hType <;> rw [hType, packedValue] at hValue <;> rw [hType]
      · exact hHolds lists _ hValue
      · exact hHolds sets _ hValue
      · exact hHolds hashes _ hValue
    rw [if_neg (fun hEmpty => by simp [hNone.mpr hEmpty] at hValue), sources]
    simp [hTyped, hPacked]

end Sources

/-! ## A row and its source -/

section Row

variable [Doubles] [Listing] [Inputs] {m : TableMap} {now elapsed : Nat} {ks : Keyspace}
  {key : Bytes} {row : Row}

/-- The columns of a row read back from a source. -/
def TableMap.Shows (m : TableMap) (now elapsed : Nat) (key : Bytes) (s : Source) (x : Slot) : Prop :=
  ∃ d, s.column now key x.1 = .ok d ∧ m.readsBack elapsed x.1 x.2 d

/-- The table has the row if the key has one source that shows each of its columns. -/
theorem TableMap.creates_iff (hValid : m.Valid) (hVector : m.tabletype ≠ .vector)
    (hLength : row.length = m.cols.length) (hOwns : m.owns ks key = true) :
    m.Creates now elapsed ks key row ↔ ∃ s, m.sources (ks key) = [s] ∧
      ∀ x ∈ m.slots row, m.Shows now elapsed key s x := by
  have hRows : m.rowsAt now ks key = (m.sources (ks key)).mapM (m.sourceRow now key) := by
    rw [rowsAt, if_pos hOwns, serverRows_eq hValid hVector]
  have hPlace : ∀ {i : Nat} {c : Column}, m.cols[i]? = some c → ∃ d, row[i]? = some d := by
    intro i c hc
    have hi : i < row.length := hLength ▸ (List.getElem?_eq_some_iff.mp hc).1
    exact ⟨row[i], List.getElem?_eq_getElem hi⟩
  constructor
  · rintro ⟨row', hRow, hBack, -⟩
    rw [hRows, mapM_ok] at hRow
    obtain ⟨s, rest, hSource, hRest, hSources⟩ := List.forall₂_cons_right_iff.mp hRow
    rw [List.forall₂_nil_right_iff.mp hRest] at hSources
    refine ⟨s, hSources, fun x hx => ?_⟩
    obtain ⟨i, hc, hd⟩ := mem_slots.mp hx
    obtain ⟨d', hd', hColumn⟩ := (mapM_ok_getElem?.mp hSource).2 i x.1 hc
    exact ⟨d', hColumn, hBack.2 i x.1 x.2 d' hc hd hd'⟩
  · rintro ⟨s, hSources, hShows⟩
    obtain ⟨row', hRow'⟩ : ∃ row', m.sourceRow now key s = .ok row' := by
      refine exists_mapM_ok fun c hc => ?_
      obtain ⟨i, hi⟩ := List.mem_iff_getElem?.mp hc
      obtain ⟨d, hd⟩ := hPlace hi
      obtain ⟨d', hColumn, -⟩ := hShows (c, d) (mem_slots.mpr ⟨i, hi, hd⟩)
      exact ⟨d', hColumn⟩
    have hOwn : m.rowsAt now ks key = .ok [row'] := by
      rw [hRows, hSources, mapM_ok]
      exact .cons hRow' .nil
    obtain ⟨hLength', hColumns⟩ := mapM_ok_getElem?.mp hRow'
    refine ⟨row', hOwn, ⟨hLength', fun i c d d' hc hd hd' => ?_⟩, fun cid a q rows hReads hRows hq => ?_⟩
    · obtain ⟨d₁, hColumn, hBack⟩ := hShows (c, d) (mem_slots.mpr ⟨i, hc, hd⟩)
      obtain ⟨d₂, hd₂, hColumn'⟩ := hColumns i c hc
      rw [hd', Option.some.injEq] at hd₂
      rw [hColumn, Except.ok.injEq] at hColumn'
      rw [hd₂, ← hColumn']
      exact hBack
    · have hLists : Lists (m.rowsAt now ks) q (m.select now ks [] cid a q) :=
        m.select_lists hValid hReads cid
      rw [hRows] at hLists
      exact hLists.mem hOwn (List.mem_singleton_self row') hq

end Row

/-! ## The columns of an inserted row -/

section Columns

/-- The operation of an INSERT through a valid map, of a row that can be read back. -/
structure TableMap.InsertOf [Doubles] [Inputs] (m : TableMap) (stamp : Stamp) (row : Row)
    (op : WriteOp) : Prop extends m.RenderOf .insert stamp row op where
  valid : m.Valid
  readable : m.Readable row
  length : row.length = m.cols.length

variable [Doubles] [Listing] [Inputs] {m : TableMap} {now elapsed : Nat} {stamp : Stamp}
  {row : Row} {op : WriteOp} {src : Source}

omit [Doubles] [Listing] in
theorem storeText_readable {c : Column} {b : Bytes} (h : (Inputs.read c b).isSome) :
    ∃ d, storeText c (some b) = .ok d := by
  obtain ⟨text, hText⟩ := Option.isSome_iff_exists.mp h
  exact ⟨_, storeText_eq hText⟩

omit [Doubles] [Listing] in
theorem TableMap.Readable.text_of_mem (h : m.Readable row) {x : Slot} (hx : x ∈ m.slots row)
    {b : Bytes} (hb : x.2 = some (.scalar b)) : (Inputs.read x.1 b).isSome := by
  obtain ⟨i, hc, hd⟩ := mem_slots.mp hx
  exact h.text i x.1 b hc (hd.trans (congrArg some hb))

/-- The key column shows the key; only a key that the row leaves out may be one its
column cannot read. -/
theorem TableMap.InsertOf.shows_key (hInsert : m.InsertOf stamp row op) (now elapsed : Nat)
    (src : Source) :
    (∀ x ∈ m.slots row, x.1.kind = .key → m.Shows now elapsed op.key src x) ↔
      ∀ s c, m.singletonKey = some s → m.slot .key row = some (c, none) →
        (Inputs.read c s).isSome := by
  have hColumn : ∀ x : Slot, x.1.kind = .key →
      src.column now op.key x.1 = storeText x.1 (some op.key) := by
    intro x hKind
    simp only [Source.column, hKind]
  constructor
  · intro hShows s c hs hSlot
    obtain ⟨hx, hKind⟩ := mem_of_slot hSlot
    obtain ⟨d, hd, -⟩ := hShows _ hx hKind
    have hKey := hInsert.key
    rw [hSlot] at hKey
    rw [hColumn _ hKind] at hd
    obtain ⟨b, hRead, -⟩ := storeText_ok hd
    rw [buildKey_null hKey, Option.some.injEq] at hs
    rw [← hs, hRead]
    rfl
  · intro hNull x hx hKind
    have hSlot := slot_of_mem hInsert.valid.soleKey hx hKind
    have hKey := hInsert.key
    obtain ⟨c, d⟩ := x
    rw [hSlot] at hKey
    unfold Shows
    simp only [hColumn _ hKind, readsBack, show c.kind = .key from hKind]
    cases d with
    | none =>
      obtain ⟨d', hd'⟩ := storeText_readable (hNull op.key c (buildKey_null hKey) hSlot)
      exact ⟨d', hd', .inl rfl⟩
    | some d =>
      obtain rfl := buildKey_text hKey
      obtain ⟨d', hd'⟩ := storeText_readable (hInsert.readable.text_of_mem hx rfl)
      exact ⟨d', hd', .inr hd'⟩

theorem TableMap.shows_text (hReadable : m.Readable row) {x : Slot} (hx : x ∈ m.slots row)
    (hKind : x.1.kind = .value ∨ x.1.kind = .member) {b : Bytes} (hb : x.2 = some (.scalar b))
    {key : Bytes} (hColumn : src.column now key x.1 = storeText x.1 (some b)) :
    m.Shows now elapsed key src x := by
  obtain ⟨d, hd⟩ := storeText_readable (hReadable.text_of_mem hx hb)
  refine ⟨d, hColumn.trans hd, ?_⟩
  rcases hKind with hKind | hKind <;> simp only [readsBack, hKind, hb, writtenText, hd]

/-- A row is kept if its key has one source when it has a payload, and if that source
shows every column. -/
theorem TableMap.InsertOf.creates_iff_keeps (hInsert : m.InsertOf stamp row op)
    (hVector : m.tabletype ≠ .vector) {ks : Keyspace} (hOwns : m.owns ks op.key = true) (src : Source)
    (hSources : m.sources (ks op.key) = [] ∨ m.sources (ks op.key) = [src])
    (hPayload : m.FieldsKept row → (m.sources (ks op.key) = [src] ↔ m.HasPayload row))
    (hColumns : m.sources (ks op.key) = [src] →
      ((∀ x ∈ m.slots row, x.1.kind ≠ .key → m.Shows now elapsed op.key src x) ↔
        m.FieldsKept row ∧ m.ScoresKept row ∧ m.TtlsKept row elapsed)) :
    m.Creates now elapsed ks op.key row ↔ m.Keeps row elapsed := by
  rw [creates_iff hInsert.valid hVector hInsert.length hOwns]
  have hKey := hInsert.shows_key now elapsed src
  constructor
  · rintro ⟨s, hOnly, hShows⟩
    obtain rfl : s = src := by
      rcases hSources with hNone | hOne
      · simp [hNone] at hOnly
      · simpa [hOne] using hOnly.symm
    obtain ⟨hFields, hScores, hTtls⟩ := (hColumns hOnly).mp fun x hx _ => hShows x hx
    exact ⟨(hPayload hFields).mp hOnly, hKey.mp fun x hx _ => hShows x hx, hScores, hFields,
      hTtls⟩
  · intro hKeeps
    have hOnly := (hPayload hKeeps.fields).mpr hKeeps.payload
    refine ⟨src, hOnly, fun x hx => ?_⟩
    by_cases hKind : x.1.kind = .key
    · exact hKey.mpr hKeeps.key x hx hKind
    · exact (hColumns hOnly).mpr ⟨hKeeps.fields, hKeeps.scores, hKeeps.ttls⟩ x hx hKind

end Columns

/-! ## Rows that store one text -/

section Mapped

/-- The text that a row of a mapped table other than a hash is stored as. -/
def WriteOp.payload (op : WriteOp) : Option Bytes :=
  if op.tabletype = .string then op.value else op.member

/-- The row that a scan finds a text in. -/
def WriteOp.textSource [Doubles] (op : WriteOp) (b : Bytes) : Source :=
  match op.tabletype with
  | .list => .element b 0
  | .set => .member b
  | .zset => .scored b ((Doubles.canon (op.score.getD [0x30])).getD [])
  | .string | .hash | .vector => .string b

/-- What a column that a row must not leave out is rendered as. -/
theorem TableMap.required_spec {m : TableMap} {row : Row} {kind : ColKind}
    {render : Column → Datum → Except RowError Bytes}
    (hText : ∀ {c d b}, render c d = .ok b → d = .scalar b) (hSole : Sole kind m.cols)
    (hLength : row.length = m.cols.length) {out : Option Bytes}
    (h : renderRequired render (m.slot kind row) = .ok out) :
    (out.isSome ↔ ∃ c ∈ m.cols, c.kind = kind) ∧
      ∀ x ∈ m.slots row, x.1.kind = kind → ∃ b, out = some b ∧ x.2 = some (.scalar b) := by
  rw [← slot_isSome hLength]
  cases hSlot : m.slot kind row with
  | none =>
    rw [hSlot] at h
    cases h
    refine ⟨by simp, fun x hx hKind => ?_⟩
    rw [slot_of_mem hSole hx hKind] at hSlot
    cases hSlot
  | some y =>
    rw [hSlot] at h
    obtain ⟨b, rfl, hb⟩ := renderRequired_ok hText h
    refine ⟨by simp, fun x hx hKind => ⟨b, rfl, ?_⟩⟩
    rw [slot_of_mem hSole hx hKind, Option.some.injEq] at hSlot
    rw [hSlot, hb]

variable [Doubles] [Listing] [Inputs] {m : TableMap} {now elapsed : Nat} {stamp : Stamp}
  {row : Row} {op : WriteOp} (hInsert : m.InsertOf stamp row op) (hMapped : m.legacyValue = false)
  (hHash : m.tabletype ≠ .hash) (hVector : m.tabletype ≠ .vector)

include hInsert hMapped hHash hVector

theorem TableMap.InsertOf.sources_created (now : Nat) :
    m.sources (op.created now) = op.payload.toList.map op.textSource := by
  unfold WriteOp.created WriteOp.payload WriteOp.textSource
  rw [hInsert.shape, if_neg (by simp [hMapped]), hInsert.tabletype]
  cases hType : m.tabletype with
  | hash => exact absurd hType hHash
  | vector => exact absurd hType hVector
  | string =>
    cases op.value with
    | none => rfl
    | some v => simp [sources, Value.type, TableType.valueType, hType, hMapped, Value.sources]
  | list =>
    dsimp only
    rw [sources_list hMapped hType]
    cases op.member <;> rfl
  | set =>
    dsimp only
    rw [sources_set hMapped hType]
    cases op.member with
    | none => simp [Listing.members_empty]
    | some x => simp [Listing.members_singleton]
  | zset =>
    dsimp only
    rw [sources_zset hMapped hType]
    cases op.member with
    | none => simp [Listing.ranked_empty]
    | some x => simp [Listing.ranked_singleton]

omit [Listing] in
theorem TableMap.InsertOf.payload_isSome : op.payload.isSome ↔ m.HasPayload row := by
  have hValue := required_spec renderText_ok (hInsert.valid.roles .value rfl) hInsert.length
    (hInsert.value hMapped hHash)
  have hMember := required_spec renderText_ok (hInsert.valid.roles .member rfl) hInsert.length hInsert.member
  have hShape : ¬ m.legacyValue = true := by simp [hMapped]
  unfold WriteOp.payload HasPayload
  rw [hInsert.tabletype, if_neg hShape]
  cases hType : m.tabletype with
  | hash => exact absurd hType hHash
  | vector => exact absurd hType hVector
  | string => exact hValue.1
  | list | set | zset => exact hMember.1

/-- The columns besides the key and the score show what they were written as. -/
theorem TableMap.InsertOf.shows_payload {b : Bytes} (hb : op.payload = some b) {x : Slot}
    (hx : x ∈ m.slots row) (hKey : x.1.kind ≠ .key) (hScore : x.1.kind ≠ .score) :
    m.Shows now elapsed op.key (op.textSource b) x := by
  obtain ⟨i, hc, -⟩ := mem_slots.mp hx
  have hCases : x.1.kind = .dropped ∨ (x.1.kind = .position ∧ m.tabletype = .list) ∨
      (x.1.kind = .value ∧ m.tabletype = .string) ∨ (x.1.kind = .member ∧
        (m.tabletype = .list ∨ m.tabletype = .set ∨ m.tabletype = .zset)) := by
    have hKinds := hInsert.valid.kinds hMapped (List.mem_of_getElem? hc)
    cases hType : m.tabletype <;> simp_all
    exact hKinds.imp_right Or.symm
  unfold WriteOp.payload at hb
  rw [hInsert.tabletype] at hb
  unfold WriteOp.textSource
  rw [hInsert.tabletype]
  rcases hCases with hKind | ⟨hKind, hType⟩ | ⟨hKind, hType⟩ | ⟨hKind, hType⟩
  · refine ⟨none, ?_, ?_⟩
    · simp only [Source.column, hKind]
    · simp only [readsBack, hKind]
  · refine ⟨some (.scalar (decimal 0)), ?_, ?_⟩
    · simp only [Source.column, hKind, hType]
    · simp only [readsBack, hKind]
  · obtain ⟨v, hv, hText⟩ := (required_spec renderText_ok (hInsert.valid.roles .value rfl) hInsert.length
      (hInsert.value hMapped hHash)).2 x hx hKind
    obtain rfl : v = b := by simpa [hType, hv] using hb
    exact shows_text hInsert.readable hx (.inl hKind) hText (by simp only [Source.column, hKind, hType])
  · obtain ⟨v, hv, hText⟩ := (required_spec renderText_ok (hInsert.valid.roles .member rfl) hInsert.length
      hInsert.member).2 x hx hKind
    have hString : m.tabletype ≠ .string := by
      rcases hType with hType | hType | hType <;> simp [hType]
    obtain rfl : v = b := by simpa [hString, hv] using hb
    refine shows_text hInsert.readable hx (.inr hKind) hText ?_
    rcases hType with hType | hType | hType <;> simp only [Source.column, hKind, hType]

omit hMapped hHash hVector in
/-- A score column shows the number that the server made of the score, if it can read it. -/
theorem TableMap.InsertOf.shows_score (now elapsed : Nat) (b : Bytes)
    (hCanon : m.tabletype = .zset → (Doubles.canon (op.score.getD [0x30])).isSome) :
    (∀ x ∈ m.slots row, x.1.kind = .score → m.Shows now elapsed op.key (op.textSource b) x) ↔
      m.ScoresKept row := by
  refine forall₂_congr fun x hx => forall_congr' fun hKind => ?_
  obtain ⟨i, hc, -⟩ := mem_slots.mp hx
  have hType : m.tabletype = .zset := by
    have hConflict := hInsert.valid.types x.1 (List.mem_of_getElem? hc)
    by_contra hNot
    simp [columnConflict, hKind, hNot] at hConflict
  obtain ⟨v, hv, hText⟩ := (required_spec renderScore_ok (hInsert.valid.roles .score rfl) hInsert.length
    hInsert.score).2 x hx hKind
  obtain ⟨s, hs⟩ := Option.isSome_iff_exists.mp (hCanon hType)
  rw [hv, Option.getD_some] at hs
  have hColumn : (op.textSource b).column now op.key x.1 = storeText x.1 (some s) := by
    simp only [WriteOp.textSource, hInsert.tabletype, hType, Source.column, hKind, hv, Option.getD_some,
      hs]
  have hBack : ∀ d, m.readsBack elapsed x.1 x.2 d ↔ storeText x.1 (some s) = .ok d := by
    intro d
    simp only [readsBack, hKind, hText, writtenText, Option.bind_some, hs]
  simp only [Shows, hColumn, hBack, and_self]
  simp only [hText, writtenText, Option.bind_some, hs, Option.some.injEq, forall_eq']
  refine ⟨?_, storeText_readable⟩
  rintro ⟨d, hd⟩
  obtain ⟨text, hRead, -⟩ := storeText_ok hd
  rw [hRead]
  rfl

omit [Listing] hMapped in
theorem TableMap.InsertOf.hash_column {x : Slot} (hx : x ∈ m.slots row) :
    x.1.kind ≠ .field ∧ x.1.kind ≠ .ttl := by
  obtain ⟨i, hc, -⟩ := mem_slots.mp hx
  have hConflict := hInsert.valid.types x.1 (List.mem_of_getElem? hc)
  constructor <;> intro hKind <;> simp [columnConflict, hKind, hHash, hVector] at hConflict

theorem TableMap.InsertOf.mapped_creates_iff {ks : Keyspace} (hOwns : m.owns ks op.key = true) {at' : Nat}
    (hValue : ks op.key = op.created at') (hCanon : m.tabletype = .zset → op.payload.isSome →
      (Doubles.canon (op.score.getD [0x30])).isSome) :
    m.Creates now elapsed ks op.key row ↔ m.Keeps row elapsed := by
  have hSources := hInsert.sources_created hMapped hHash hVector at'
  rw [← hValue] at hSources
  have hPayload := hInsert.payload_isSome hMapped hHash hVector
  have hHashed : m.FieldsKept row ∧ m.TtlsKept row elapsed :=
    ⟨fun x hx hKind => absurd hKind (hInsert.hash_column hHash hVector hx).1,
      fun x hx hKind => absurd hKind (hInsert.hash_column hHash hVector hx).2⟩
  cases hb : op.payload with
  | none =>
    rw [hb] at hSources hPayload
    refine hInsert.creates_iff_keeps hVector hOwns (.string [])
      (.inl hSources) (fun _ => ?_) fun hOnly => ?_
    · rw [hSources, ← hPayload]
      simp
    · simp [hSources] at hOnly
  | some b =>
    rw [hb] at hSources hPayload
    refine hInsert.creates_iff_keeps hVector hOwns (op.textSource b)
      (.inr hSources) (fun _ => ?_) fun _ => ?_
    · rw [hSources, ← hPayload]
      simp
    · have hScores := hInsert.shows_score now elapsed b
        fun hType => hCanon hType (by simp [hb])
      rw [← hScores]
      refine ⟨fun h => ⟨hHashed.1, fun x hx hKind => h x hx (by simp [hKind]), hHashed.2⟩,
        fun h x hx hKey => ?_⟩
      by_cases hKind : x.1.kind = .score
      · exact h.2.1 x hx hKind
      · exact hInsert.shows_payload hMapped hHash hVector hb hx hKey hKind

end Mapped

/-! ## Packed rows -/

section PackedRow

theorem lookup_packedFields {packed : List Bytes} {h : Fields} {f : Bytes} {x : HField}
    (hLookup : (packedFields packed h).lookup f = some x) :
    h.lookup f = some x ∨ (f ∈ packed ∧ x.data ∈ packed) := by
  induction packed using packPairs.induct generalizing h with
  | case1 f' v rest ih =>
    rw [packedFields] at hLookup
    rcases ih hLookup with hIn | hIn
    · by_cases hf : f = f'
      · subst hf
        rw [Finmap.lookup_insert, Option.some.injEq] at hIn
        subst hIn
        exact .inr ⟨by simp, by simp⟩
      · rw [Finmap.lookup_insert_of_ne _ hf] at hIn
        exact .inl hIn
    · exact .inr ⟨by simp [hIn.1], by simp [hIn.2]⟩
  | case2 l hl =>
    rw [packedFields] at hLookup
    · exact .inl hLookup
    · exact hl

theorem TableMap.renderPacked_spec {m : TableMap} {row : Row} {packed : List Bytes}
    (h : m.renderPacked row = .ok packed) :
    packed = ((m.slot .legacyValue row).map fun x => writtenElems x.2).getD [] ∧
      (m.tabletype = .hash → packed.length % 2 = 0) := by
  unfold renderPacked at h
  split at h
  · rename_i hSlot
    cases h
    simp [hSlot]
  · rename_i c hSlot
    cases h
    simp [hSlot, writtenElems]
  · rename_i c ndim elems hSlot
    split_ifs at h
    obtain ⟨packed', hPacked, h⟩ := bind_ok.mp h
    split_ifs at h with hOdd
    cases h
    refine ⟨?_, fun hHash => by_contra fun hNot => hOdd ⟨hHash, hNot⟩⟩
    rw [hSlot, packElements_ok hPacked]
    simp [writtenElems, List.reduceOption]
  · cases h
  · cases h

variable [Doubles] [Listing] [Inputs] {m : TableMap} {now elapsed : Nat} {stamp : Stamp}
  {row : Row} {op : WriteOp}

omit [Doubles] [Inputs] in
theorem elems_lists (l : List Bytes) : (lists.write l).elim [] Value.elems = l := by
  by_cases hEmpty : l = []
  · subst hEmpty
    rfl
  · rw [show lists.write l = some (.list ⟨l, hEmpty⟩) from dif_neg hEmpty]
    rfl

omit [Doubles] [Inputs] in
theorem elems_sets (s : Finset Bytes) :
    (sets.write s).elim [] Value.elems = Listing.members s := by
  by_cases hEmpty : s = ∅
  · subst hEmpty
    exact Listing.members_empty.symm
  · rw [show sets.write s = some (.set ⟨s, hEmpty⟩) from dif_neg hEmpty]
    rfl

omit [Doubles] [Inputs] in
theorem elems_hashes (h : Fields) : (hashes.write h).elim [] Value.elems =
    (Listing.members h.keys).flatMap fun f => [f, ((h.lookup f).map HField.data).getD []] := by
  by_cases hEmpty : h = ∅
  · subst hEmpty
    rw [Finmap.keys_empty, Listing.members_empty]
    rfl
  · rw [show hashes.write h = some (.hash ⟨h, hEmpty⟩) from dif_neg hEmpty]
    rfl

omit [Doubles] [Inputs] in
theorem TableMap.mem_of_mem_repack {packed : List Bytes} {b : Bytes} (h : b ∈ m.repack packed) :
    b ∈ packed := by
  unfold repack packedValue at h
  cases hType : m.tabletype with
  | string | zset | vector => simp [hType] at h
  | list =>
    rw [hType] at h
    rwa [elems_lists] at h
  | set =>
    rw [hType] at h
    rw [elems_sets, Listing.mem_members] at h
    exact List.mem_toFinset.mp h
  | hash =>
    rw [hType] at h
    rw [elems_hashes, List.mem_flatMap] at h
    obtain ⟨f, hf, hb⟩ := h
    obtain ⟨x, hx⟩ := Finmap.mem_iff.mp (Finmap.mem_keys.mp (Listing.mem_members.mp hf))
    have hIn := (lookup_packedFields hx).resolve_left (by simp)
    simp only [hx, Option.map_some, Option.getD_some, List.mem_cons, List.not_mem_nil,
      or_false] at hb
    rcases hb with rfl | rfl
    · exact hIn.1
    · exact hIn.2

omit [Doubles] in
/-- The elements of an array can be read back into its column. -/
theorem TableMap.Readable.storePacked_repack (h : m.Readable row) {x : Slot}
    (hx : x ∈ m.slots row) :
    ∃ d, storePacked x.1 (.array ((m.repack (writtenElems x.2)).map .string)) = .ok d := by
  obtain ⟨i, hc, hd⟩ := mem_slots.mp hx
  have hRead : ∀ b ∈ m.repack (writtenElems x.2), (Inputs.read x.1 b).isSome := by
    intro b hb
    have hIn := mem_of_mem_repack hb
    unfold writtenElems at hIn
    split at hIn
    · rename_i n elems hArray
      exact h.elems i x.1 n elems hc (hd.trans (congrArg some hArray)) b
        (List.reduceOption_mem_iff.mp hIn)
    · cases hIn
  simp only [storePacked, bind_ok]
  rw [exists_comm]
  refine (exists_mapM_ok fun e he => ?_).imp fun elems hElems => ⟨_, hElems, rfl⟩
  obtain ⟨b, hb, rfl⟩ := List.mem_map.mp he
  obtain ⟨text, hText⟩ := Option.isSome_iff_exists.mp (hRead b hb)
  exact ⟨some text, by simp [Resp.str, readText, hText]⟩

theorem TableMap.InsertOf.packed_creates_iff (hInsert : m.InsertOf stamp row op)
    (hPacked : m.legacyValue = true)
    (hType : m.tabletype = .list ∨ m.tabletype = .set ∨ m.tabletype = .hash) {ks : Keyspace}
    (hOwns : m.owns ks op.key = true) {at' : Nat} (hValue : ks op.key = op.created at') :
    m.Creates now elapsed ks op.key row ↔ m.Keeps row elapsed := by
  obtain ⟨hElems, hEven⟩ := renderPacked_spec (hInsert.packed hPacked)
  obtain ⟨-, k, v, hCols, ⟨-, hKey⟩, -, hArray⟩ := hInsert.valid.packed hPacked
  obtain ⟨a, d, rfl⟩ := List.length_eq_two.mp (hInsert.length.trans (congrArg List.length hCols))
  have hSlots : m.slots [a, d] = [(k, a), (v, d)] := by
    rw [slots, hCols]
    rfl
  have hSlot : m.slot .legacyValue [a, d] = some (v, d) := by
    simp [slot, hSlots, hKey, hArray]
  rw [hSlot, Option.map_some, Option.getD_some] at hElems
  have hVector : m.tabletype ≠ .vector := by
    rcases hType with hType | hType | hType <;> simp [hType]
  have hKinds : ∀ x ∈ m.slots [a, d], x.1.kind = .key ∨ x.1.kind = .legacyValue := by
    intro x hx
    rw [hSlots, List.mem_pair] at hx
    rcases hx with rfl | rfl
    · exact .inl hKey
    · exact .inr hArray
  have hSources : m.sources (ks op.key) =
      if op.packed = [] then [] else [.packed (m.repack op.packed)] := by
    rw [hValue, WriteOp.created, hInsert.shape, if_pos hPacked, hInsert.tabletype,
      sources_packed hPacked hType hEven]
  have hHas : m.HasPayload [a, d] ↔ op.packed ≠ [] := by
    rw [HasPayload, if_pos hPacked, hSlot, hElems]
    simp
  refine hInsert.creates_iff_keeps hVector hOwns (.packed (m.repack op.packed)) ?_ (fun _ => ?_) fun _ => ?_
  · rw [hSources]
    split_ifs
    · exact .inl rfl
    · exact .inr rfl
  · rw [hSources, hHas]
    split_ifs with hEmpty <;> simp [hEmpty]
  · refine iff_of_true (fun x hx hNot => ?_) ⟨?_, ?_, ?_⟩
    · obtain rfl : x = (v, d) := by
        rw [hSlots, List.mem_pair] at hx
        refine hx.resolve_left ?_
        rintro rfl
        exact hNot hKey
      obtain ⟨d', hd'⟩ := hInsert.readable.storePacked_repack hx
      refine ⟨d', ?_, ?_⟩
      · simp only [Source.column, hArray, hElems, hd']
      · simp only [readsBack, hArray, hd']
    all_goals
      intro x hx hKind
      rcases hKinds x hx with h | h <;> simp [h] at hKind

end PackedRow

/-! ## Rows of a hash -/

section HashRow

variable [Doubles] [Inputs] {m : TableMap} {stamp : Stamp} {row : Row} {op : WriteOp}
  (hInsert : m.InsertOf stamp row op) (hMapped : m.legacyValue = false) (hHash : m.tabletype = .hash)

include hInsert hMapped hHash

namespace TableMap

theorem InsertOf.lastField_eq (f : Bytes) : op.lastField f = m.lastField row f := by
  obtain ⟨args, hArgs, h⟩ := bind_ok.mp (hInsert.fields hMapped hHash)
  split_ifs at h
  cases h
  have hFields : op.fields = ((m.slots row).filter (·.1.kind = .field)).map fun x =>
      ⟨x.1.field, writtenText x.2⟩ := by
    refine map_of_mapM_ok (fun x _ a ha => ?_) hArgs
    obtain ⟨c, d⟩ := x
    cases d with
    | none =>
      cases ha
      rfl
    | some d =>
      obtain ⟨b, hb, ha⟩ := bind_ok.mp ha
      cases ha
      rw [renderText_ok hb]
      rfl
  rw [WriteOp.lastField, hFields, lastWrite_map, lastWrite_filter, lastField]
  refine lastWrite_congr fun x _ => ?_
  by_cases hKind : x.1.kind = .field <;> simp [hKind]

theorem InsertOf.lastTtl_eq (f : Bytes) : op.lastTtl f = m.lastTtl row f := by
  have hTtls : op.ttls = ((m.slots row).filter (·.1.kind = .ttl)).map fun x =>
      ⟨x.1.field, writtenMs x.1 x.2⟩ := by
    refine map_of_mapM_ok (fun x _ t ht => ?_) (hInsert.ttls hMapped hHash)
    unfold renderTtl at ht
    split at ht
    · cases ht
      rfl
    · obtain ⟨ms, hms, ht⟩ := bind_ok.mp ht
      cases ht
      simp [writtenMs, hms, Except.toOption]
    · cases ht
    · cases ht
  rw [WriteOp.lastTtl, hTtls, lastWrite_map, lastWrite_filter, lastTtl]
  refine lastWrite_congr fun x _ => ?_
  by_cases hKind : x.1.kind = .ttl <;> simp [hKind]

/-- A row that sets no field of its table is refused. -/
theorem InsertOf.field_set (hField : ∃ c ∈ m.cols, c.kind = .field) :
    ∃ x ∈ m.slots row, x.1.kind = .field ∧ ∃ b, x.2 = some (.scalar b) := by
  obtain ⟨args, hArgs, h⟩ := bind_ok.mp (hInsert.fields hMapped hHash)
  split_ifs at h with hNull
  obtain ⟨y, hSlot⟩ := Option.isSome_iff_exists.mp ((slot_isSome hInsert.length).mpr hField)
  obtain ⟨hy, hKind⟩ := mem_of_slot hSlot
  have hSome : args ≠ [] := by
    rintro rfl
    have hNone := List.forall₂_nil_right_iff.mp (mapM_ok.mp hArgs)
    simpa [hKind] using List.filter_eq_nil_iff.mp hNone y hy
  have hData : ¬ args.all (·.data = none) := fun hAll => hNull ⟨hSome, rfl, hAll⟩
  simp only [List.all_eq_true, decide_eq_true_eq, not_forall] at hData
  obtain ⟨a, ha, hData⟩ := hData
  obtain ⟨⟨c, d⟩, hx, hInserted⟩ := exists_of_mapM_ok hArgs ha
  obtain ⟨hx, hKind⟩ := List.mem_filter.mp hx
  cases d with
  | none =>
    cases hInserted
    exact absurd rfl hData
  | some d =>
    obtain ⟨b, hb, -⟩ := bind_ok.mp hInserted
    exact ⟨_, hx, of_decide_eq_true hKind, b, congrArg some (renderText_ok hb)⟩

theorem InsertOf.lookup_created (now : Nat) (f : Bytes) :
    (op.fieldsAfter now ∅).lookup f = (m.lastField row f).join.map fun v =>
      ⟨v, (m.lastTtl row f).join.map (now + ·)⟩ := by
  rw [WriteOp.lookup_fieldsAfter (renderTtls_ne_zero (hInsert.ttls hMapped hHash)),
    hInsert.lastField_eq hMapped hHash, hInsert.lastTtl_eq hMapped hHash, Finmap.lookup_empty]
  rcases m.lastField row f with _ | _ | v
  · rfl
  · rfl
  · rcases m.lastTtl row f with _ | _ | ms <;> rfl

variable {now later : Nat}

/-- What is left of the expiry that a field ended up with. -/
theorem InsertOf.ttlDatum_created (hLater : now ≤ later)
    (hAlive : ∀ x ∈ m.slots row, x.1.kind = .ttl → ∀ ms, writtenMs x.1 x.2 = some ms →
      later < now + ms) (f : Bytes) :
    ttlDatum (remaining later ((op.fieldsAfter now ∅).lookup f)) =
      match m.expiry row f with
      | none => .ok none
      | some ms =>
        if ms ≤ (2 ^ 63 - 1) / 1000 + (later - now) then
          .ok (some (.interval 0 0 (((ms : Int) - (later - now : Nat)) * 1000)))
        else .error (.ttlRange ((ms : Int) - (later - now : Nat))) := by
  rw [hInsert.lookup_created hMapped hHash]
  cases hExpiry : m.expiry row f with
  | none =>
    unfold expiry at hExpiry
    rcases hField : m.lastField row f with _ | _ | v
    · rfl
    · rfl
    · simp only [hField] at hExpiry
      rw [hExpiry]
      rfl
  | some ms =>
    obtain ⟨x, hx, hKind, hms⟩ := mem_of_expiry hExpiry
    have hLeft := hAlive x hx hKind ms hms
    unfold expiry at hExpiry
    rcases hField : m.lastField row f with _ | _ | v
    · simp [hField] at hExpiry
    · simp [hField] at hExpiry
    · simp only [hField] at hExpiry
      rw [hExpiry]
      have hRemaining : ((now + ms : Nat) : Int) - later = (ms : Int) - (later - now : Nat) := by
        omega
      simp only [Option.join_some, Option.map_some, remaining, ttlDatum, hRemaining]
      rw [if_neg (by omega)]
      split_ifs with hRange hRange' <;> first | rfl | omega

variable [Listing]

theorem InsertOf.shows_field (elapsed : Nat) :
    (∀ x ∈ m.slots row, x.1.kind = .field →
      m.Shows later elapsed op.key (.hash (op.fieldsAfter now ∅)) x) ↔ m.FieldsKept row := by
  refine forall₂_congr fun x hx => forall_congr' fun hKind => ?_
  obtain ⟨text, hText⟩ := lastField_isSome hx hKind
  obtain ⟨d, hd⟩ : ∃ d, storeText x.1 (writtenText x.2) = .ok d := by
    unfold writtenText
    split
    · rename_i b hb
      exact storeText_readable (hInsert.readable.text_of_mem hx hb)
    · exact ⟨none, rfl⟩
  have hColumn : Source.column later op.key (.hash (op.fieldsAfter now ∅)) x.1 =
      storeText x.1 text := by
    simp only [Source.column, hKind, hInsert.lookup_created hMapped hHash, hText, Option.join_some,
      Option.map_map]
    cases text <;> rfl
  have hBack : ∀ d', m.readsBack elapsed x.1 x.2 d' ↔ d = d' := by
    intro d'
    simp only [readsBack, hKind, hd, Except.ok.injEq]
  simp only [Shows, hColumn, hBack, hText, Option.some.injEq, forall_eq', exists_eq_right', hd]

theorem InsertOf.shows_ttl (hLater : now ≤ later)
    (hAlive : ∀ x ∈ m.slots row, x.1.kind = .ttl → ∀ ms, writtenMs x.1 x.2 = some ms →
      later < now + ms) :
    (∀ x ∈ m.slots row, x.1.kind = .ttl →
      m.Shows later (later - now) op.key (.hash (op.fieldsAfter now ∅)) x) ↔
        m.TtlsKept row (later - now) := by
  refine forall₂_congr fun x hx => forall_congr' fun hKind => ?_
  simp only [Shows, Source.column, hKind, readsBack, exists_eq_right,
    hInsert.ttlDatum_created hMapped hHash hLater hAlive]
  cases hExpiry : m.expiry row x.1.field with
  | none => cases hOwn : writtenMs x.1 x.2 <;> simp
  | some ms =>
    cases hOwn : writtenMs x.1 x.2 with
    | none =>
      dsimp only
      split_ifs <;> simp
    | some own =>
      dsimp only
      split_ifs with hRange
      · simp only [Option.map_some, Except.ok.injEq, Option.some.injEq, Datum.interval.injEq,
          true_and, forall_eq']
        constructor
        · intro hSame
          omega
        · rintro ⟨rfl, -⟩
          rfl
      · simp only [Option.some.injEq, forall_eq', false_iff, not_and]
        rintro rfl
        exact hRange

omit [Listing] in
/-- If no column is written over, a hash is created exactly if the table has a field column. -/
theorem InsertOf.fieldsAfter_ne_empty (hKept : m.FieldsKept row) (now : Nat) :
    op.fieldsAfter now ∅ ≠ ∅ ↔ m.HasPayload row := by
  have hShape : ¬ m.legacyValue = true := by simp [hMapped]
  rw [HasPayload, if_neg hShape, hHash]
  constructor
  · intro hSome
    obtain ⟨f, hf⟩ : ∃ f, (op.fieldsAfter now ∅).lookup f ≠ none := by
      by_contra! hNone
      exact hSome (Finmap.ext_lookup fun f => by rw [hNone, Finmap.lookup_empty])
    obtain ⟨text, hText⟩ : ∃ text, m.lastField row f = some text := by
      rw [hInsert.lookup_created hMapped hHash] at hf
      cases hLast : m.lastField row f with
      | none => simp [hLast] at hf
      | some text => exact ⟨text, rfl⟩
    obtain ⟨x, hx, hKind, -⟩ := mem_of_lastField hText
    obtain ⟨i, hc, -⟩ := mem_slots.mp hx
    exact ⟨x.1, List.mem_of_getElem? hc, hKind⟩
  · rintro ⟨c, hc, hKind⟩ hEmpty
    obtain ⟨x, hx, hField, b, hb⟩ := hInsert.field_set hMapped hHash ⟨c, hc, hKind⟩
    obtain ⟨text, hText⟩ := lastField_isSome hx hField
    have hNone := hInsert.lookup_created hMapped hHash now x.1.field
    rw [hEmpty, Finmap.lookup_empty, hText] at hNone
    have hSame := hKept x hx hField text hText
    obtain ⟨d, hd⟩ := storeText_readable (hInsert.readable.text_of_mem hx hb)
    obtain ⟨v, -, rfl⟩ := storeText_ok hd
    cases text with
    | none =>
      rw [hb, writtenText, hd] at hSame
      cases hSame
    | some v => simp at hNone

theorem InsertOf.hash_creates_iff {ks : Keyspace} (hOwns : m.owns ks op.key = true)
    (hValue : ks op.key = op.created now) (hLater : now ≤ later)
    (hAlive : ∀ x ∈ m.slots row, x.1.kind = .ttl → ∀ ms, writtenMs x.1 x.2 = some ms →
      later < now + ms) :
    m.Creates later (later - now) ks op.key row ↔ m.Keeps row (later - now) := by
  have hSources : m.sources (ks op.key) =
      if op.fieldsAfter now ∅ = ∅ then [] else [.hash (op.fieldsAfter now ∅)] := by
    rw [hValue, WriteOp.created, hInsert.shape, if_neg (by simp [hMapped]), hInsert.tabletype, hHash]
    exact sources_hash hMapped hHash _
  refine hInsert.creates_iff_keeps (by simp [hHash]) hOwns
    (.hash (op.fieldsAfter now ∅)) ?_ (fun hKept => ?_) fun _ => ?_
  · rw [hSources]
    split_ifs
    · exact .inl rfl
    · exact .inr rfl
  · rw [hSources, ← hInsert.fieldsAfter_ne_empty hMapped hHash hKept now]
    split_ifs with hEmpty <;> simp [hEmpty]
  · rw [← hInsert.shows_field hMapped hHash (later - now),
      ← hInsert.shows_ttl hMapped hHash hLater hAlive]
    have hScores : m.ScoresKept row := by
      intro x hx hKind
      obtain ⟨i, hc, -⟩ := mem_slots.mp hx
      have hConflict := hInsert.valid.types x.1 (List.mem_of_getElem? hc)
      simp [columnConflict, hKind, hHash] at hConflict
    refine ⟨fun h => ⟨fun x hx hKind => h x hx (by simp [hKind]), hScores,
      fun x hx hKind => h x hx (by simp [hKind])⟩, fun h x hx hKey => ?_⟩
    obtain ⟨i, hc, -⟩ := mem_slots.mp hx
    have hKinds := hInsert.valid.kinds hMapped (List.mem_of_getElem? hc)
    rw [hHash] at hKinds
    rcases hKinds with (hKind | hKind) | hKind | hKind
    · exact absurd hKind hKey
    · refine ⟨none, ?_, ?_⟩
      · simp only [Source.column, hKind]
      · simp only [readsBack, hKind]
    · exact h.1 x hx hKind
    · exact h.2.2 x hx hKind

end TableMap

end HashRow

/-! ## An INSERT and its row -/

section Insert

variable [Doubles] {m : TableMap} {stamp : Stamp} {row : Row} {op : WriteOp} {ks : Keyspace}

/-- The key of an inserted row is one of the table's once it is in the index. -/
theorem TableMap.RenderOf.owns (hRender : m.RenderOf .insert stamp row op)
    (hIndex : ∀ s, op.keyset = some s →
      ∃ members, sets.read (ks s) = some members ∧ op.key ∈ members) :
    m.owns ks op.key = true := by
  unfold TableMap.owns
  cases hSingleton : m.singletonKey with
  | some s => simpa using buildKey_singleton hSingleton hRender.key
  | none =>
    dsimp only
    cases hs : m.keyset with
    | none => exact (buildKey_ok hSingleton hRender.key).2.1
    | some s =>
      obtain ⟨members, hRead, hMem⟩ := hIndex s (hRender.keyset.trans hs)
      simp [hRead, hMem]

end Insert

/-- The row of an accepted INSERT into a key that holds nothing is there for every
scan after the commit, exactly if each of its columns has a place of its own. -/
theorem insert_creates_iff [Doubles] [Listing] [Inputs] {t : TableDef} {m : TableMap}
    (hMap : mapBuild t = .ok m) (hWritable : m.writable .insert = true) {stamp : Stamp} {row : Row}
    (hRow : m.Fits row) (hReadable : m.Readable row) {op : WriteOp}
    (hInsert : m.insert stamp row = .ok op) {before after : List WriteOp} {L : Ledger}
    (hFold : foldOps (before ++ op :: after) .empty = .ok L)
    (hAlone : ∀ o ∈ before ++ after, op.Avoids o) {ks ks' : Keyspace} (hAbsent : ks op.key = none)
    {now n : Nat} (hOk : runProgram now L.plans ks = (.ok n, ks')) {later : Nat}
    (hLater : now ≤ later) (hAlive : ∀ x ∈ m.slots row, x.1.kind = .ttl →
      ∀ ms, writtenMs x.1 x.2 = some ms → later < now + ms) :
    m.Creates later (later - now) ks' op.key row ↔ m.Keeps row (later - now) := by
  have hValid := mapBuild_valid hMap
  have hRender := TableMap.render_spec hInsert
  have hInserted : m.InsertOf stamp row op := ⟨hRender, hValid, hReadable, hRow.length⟩
  have hKeyset : op.keyset ≠ some op.key := hRender.keyset ▸ TableMap.buildKey_ne_keyset hValid hRender.key
  obtain ⟨ks₁, ks₂, hExec, hBefore, hAfter, hEntry⟩ := exec_alone hFold hAlone hOk
  have hEffect := WriteOp.exec_effect (by simp [WriteOp.isRename, hRender.kind_eq]) hKeyset hExec
    fun s hs => WriteOp.exec_indexed hRender.kind_eq hKeyset hExec hs
  obtain ⟨mid, hBody, hOwn⟩ := hEffect.own
  have hValue : ks' op.key = op.created now := by
    rw [hAfter, hOwn]
    exact body_created hRender.kind_eq (hBefore.trans hAbsent) hBody
  have hOwns : m.owns ks' op.key = true := by
    refine hRender.owns fun s hs => hEntry s hs ?_
    obtain ⟨members, hRead⟩ := (sets.read_iff _).mpr
      (WriteOp.exec_indexed hRender.kind_eq hKeyset hExec hs)
    refine ⟨_, hEffect.index s members hs hRead, ?_⟩
    simp [WriteOp.index, WriteOp.deletesKey, hRender.kind_eq]
  have hVector : m.tabletype ≠ .vector := by
    intro hVector
    simp [TableMap.writable, TableMap.writeBlock, hVector] at hWritable
  cases hMapped : m.legacyValue with
  | true =>
    have hType : m.tabletype = .list ∨ m.tabletype = .set ∨ m.tabletype = .hash := by
      have hString := (hValid.packed hMapped).1
      cases hType : m.tabletype <;> simp_all [TableMap.writable, TableMap.writeBlock]
    exact hInserted.packed_creates_iff hMapped hType hOwns hValue
  | false =>
    by_cases hHash : m.tabletype = .hash
    · exact hInserted.hash_creates_iff hMapped hHash hOwns hValue hLater hAlive
    · refine hInserted.mapped_creates_iff hMapped hHash hVector hOwns hValue
        fun hZset hPayload => ?_
      obtain ⟨x, hMember⟩ := Option.isSome_iff_exists.mp hPayload
      rw [WriteOp.payload, hRender.tabletype, hZset, if_neg (by simp)] at hMember
      exact body_canon hRender.kind_eq (hRender.shape.trans hMapped) (hRender.tabletype.trans hZset)
        hMember hBody

/-- A hash whose field `f` is the column `token`, with its expiry in the column `expires`. -/
def tokensDef : TableDef where
  relid := 1
  tabletype := .hash
  columns := [{ key := true }, { field := some (ascii "f") },
    { type := .interval, ttl := true, field := some (ascii "f") }]

def tokens : TableMap where
  relid := 1
  cols := [⟨true, .key, none, .other, false⟩, ⟨true, .field, some (ascii "f"), .other, false⟩,
    ⟨true, .ttl, some (ascii "f"), .interval, false⟩]
  tabletype := .hash
  keyprefix := none
  keyset := none
  singletonKey := none
  searchIndex := none
  legacyValue := false
  readonly := false

/-- A token that expires in five seconds. -/
def tokenRow : Row := [some (.scalar [1]), some (.scalar [2]), some (.interval 0 0 5000000)]

theorem tokens_fits : tokens.Fits tokenRow := by
  refine ⟨rfl, fun i c hc hKind => ?_⟩
  have hMem := List.mem_of_getElem? hc
  simp only [tokens, List.mem_cons, List.not_mem_nil, or_false] at hMem
  rcases hMem with rfl | rfl | rfl <;> cases hKind

theorem tokens_slots {x : Slot} (hx : x ∈ tokens.slots tokenRow) :
    (x.1.kind = .key ∧ x.2 = some (.scalar [1])) ∨
      x = (⟨true, .field, some (ascii "f"), .other, false⟩, some (.scalar [2])) ∨
      x = (⟨true, .ttl, some (ascii "f"), .interval, false⟩, some (.interval 0 0 5000000)) := by
  simp only [TableMap.slots, tokens, tokenRow, List.zip_cons_cons, List.zip_nil_right,
    List.mem_cons, List.not_mem_nil, or_false] at hx
  rcases hx with rfl | rfl | rfl <;> simp

theorem tokens_keeps : letI := integerScores; letI := verbatim
    tokens.Keeps tokenRow 1000 := by
  let _ := integerScores
  let _ := verbatim
  refine ⟨?_, nofun, fun x hx hKind => ?_, fun x hx hKind text hText => ?_, fun x hx hKind => ?_⟩
  · exact ⟨⟨true, .field, some (ascii "f"), .other, false⟩, by simp [tokens], rfl⟩
  · rcases tokens_slots hx with ⟨h, -⟩ | rfl | rfl <;> simp_all
  · rcases tokens_slots hx with ⟨h, -⟩ | rfl | rfl
    · simp [h] at hKind
    · cases hText
      rfl
    · cases hKind
  · rcases tokens_slots hx with ⟨h, -⟩ | rfl | rfl
    · simp [h] at hKind
    · cases hKind
    · refine ⟨rfl, fun ms hms => ?_⟩
      cases hms
      decide

def tokenOp : WriteOp where
  kind := .insert
  relid := 1
  tabletype := .hash
  cid := 0
  key := [1]
  fields := [⟨ascii "f", some [2]⟩]
  ttls := [⟨ascii "f", some 5000⟩]
  newtup := some tokenRow

theorem insert_creates_tokens : letI := integerScores; letI := listingByName .resp2
    letI := verbatim
    ∃ L ks', tokens.insert ⟨0, 0⟩ tokenRow = .ok tokenOp ∧ foldOps [tokenOp] .empty = .ok L ∧
      runProgram 0 L.plans (fun _ => none) = (.ok 1, ks') ∧
        tokens.Creates 1000 1000 ks' [1] tokenRow := by
  let _ := verbatim
  refine ⟨_, _, rfl, rfl, rfl, ?_⟩
  refine (@insert_creates_iff integerScores (listingByName .resp2) verbatim tokensDef tokens rfl rfl
    ⟨0, 0⟩ tokenRow tokens_fits ⟨fun _ _ _ _ _ => rfl, fun _ _ _ _ _ _ _ _ => rfl⟩ tokenOp rfl
    [] [] _ rfl (by simp) (fun _ => none) _ rfl 0 1 rfl 1000 (Nat.zero_le _)
    fun x hx hKind ms hms => ?_).mpr tokens_keeps
  rcases tokens_slots hx with ⟨h, -⟩ | rfl | rfl
  · simp [h] at hKind
  · cases hKind
  · cases hms
    decide

/-- A string table that has a key column and nothing else. -/
def namesDef : TableDef where
  relid := 1
  columns := [{ key := true }]

def names : TableMap where
  relid := 1
  cols := [⟨true, .key, none, .other, false⟩]
  tabletype := .string
  keyprefix := none
  keyset := none
  singletonKey := none
  searchIndex := none
  legacyValue := false
  readonly := false

/-- The table accepts a name, the commit succeeds, and nothing was written. -/
theorem key_only_row_not_created : letI := integerScores; letI := listingByName .resp2
    letI := verbatim
    ∃ op L, mapBuild namesDef = .ok names ∧ names.writable .insert = true ∧
      names.insert ⟨0, 0⟩ [some (.scalar [1])] = .ok op ∧ foldOps [op] .empty = .ok L ∧
      runProgram 0 L.plans (fun _ => none) = (.ok 1, fun _ => none) ∧
      names.select 0 (fun _ => none) [] 1 (.keyspace none []) (fun _ => true) = .ok [] ∧
      ¬names.Creates 0 0 (fun _ => none) op.key [some (.scalar [1])] := by
  refine ⟨_, _, rfl, rfl, rfl, rfl, rfl, rfl, ?_⟩
  rintro ⟨row', hRow, -⟩
  cases hRow

end ValkeyFdw
