import ValkeyFdw.Table.Map

/-!
# Rendering a row into a buffered operation

INSERT, UPDATE and DELETE turn a row of the executor into one `WriteOp`. The new
identity and the payload come from the new row, every mapped column of it
whether the statement assigned the column or not; the old identity of an UPDATE
or a DELETE comes from the row its scan returned.
-/

namespace ValkeyFdw

/-! ## Refusals -/

/-- Why a score is refused. -/
inductive ScoreVerdict where
  | empty
  | notANumber
  | notFinite
  | trailing
  | outOfRange
deriving DecidableEq

/-- The refusals of a row; a column is named by its map entry. -/
inductive RowError where
  | nullColumn (col : Column)
  | allFieldsNull
  | tooLarge (col : Column)
  | score (col : Column) (verdict : ScoreVerdict)
  | ttlRange (col : Column)
  | ttlNotPositive (col : Column)
  | position (col : Column)
  | noKeyColumn
  | noMemberColumn
  | keyOutsidePrefix
  | keysetCollision
  | singletonMismatch
  | packedDimensions (ndim : Nat)
  | packedNull (elem : Nat)
  | packedOdd (n : Nat)
  | listUpdate
  /-- The scan returned a row that it cannot name. -/
  | nullIdentity (col : Column)
  /-- The value is not one of the column's type: the executor never passes one. -/
  | datumType (col : Column)
deriving DecidableEq

/-! ## Scalars -/

/-- The longest argument sent to the server. -/
def maxArgBytes : Nat := 536870912

/-- A scalar as text. -/
def renderText (c : Column) : Datum → Except RowError Bytes
  | .scalar b => if b.length ≤ maxArgBytes then .ok b else .error (.tooLarge c)
  | .interval .. | .array .. => .error (.datumType c)

def isDigit (b : UInt8) : Bool := 0x30 ≤ b && b ≤ 0x39

def skipSign : Bytes → Bytes
  | b :: s => if b = 0x2b ∨ b = 0x2d then s else b :: s
  | [] => []

/-- What follows the digits of a fraction, and whether there was one. -/
def skipFraction : Bytes → Bytes × Bool
  | b :: s => if b = 0x2e then (s.dropWhile isDigit, s.head?.any isDigit) else (b :: s, false)
  | [] => ([], false)

/-- What follows a complete exponent; an incomplete one is not skipped. -/
def skipExponent : Bytes → Bytes
  | b :: s =>
    if (b = 0x65 ∨ b = 0x45) ∧ (skipSign s).head?.any isDigit then (skipSign s).dropWhile isDigit
    else b :: s
  | [] => []

/-- What follows the longest number at the start of the text, if there is one. -/
def scoreScan (s : Bytes) : Option Bytes :=
  let whole := skipSign s
  let (rest, fraction) := skipFraction (whole.dropWhile isDigit)
  if whole.head?.any isDigit || fraction then some (skipExponent rest) else none

/-- The spellings of an infinity, in either case. -/
def isInfinite (s : Bytes) : Bool :=
  let word := (skipSign s).map fun b => if 0x41 ≤ b ∧ b ≤ 0x5a then b + 0x20 else b
  word = [0x69, 0x6e, 0x66] || word = [0x69, 0x6e, 0x66, 0x69, 0x6e, 0x69, 0x74, 0x79]

/-- Why the text is not a score the wrapper sends; a proper subset of what servers accept passes. -/
def scoreClassify [Doubles] (s : Bytes) : Option ScoreVerdict :=
  if s = [] then some .empty
  else match scoreScan s with
    | none => some (if isInfinite s then .notFinite else .notANumber)
    | some (_ :: _) => some .trailing
    | some [] => if Doubles.inRange s then none else some .outOfRange

def renderScore [Doubles] (c : Column) (d : Datum) : Except RowError Bytes := do
  let s ← renderText c d
  match scoreClassify s with
  | none => return s
  | some verdict => .error (.score c verdict)

def inInt64 (n : Int) : Bool := -2 ^ 63 ≤ n && n < 2 ^ 63

/-- The milliseconds of an interval: a month is 30 days, a day is 24 hours. -/
def renderInterval (c : Column) (month day time : Int) : Except RowError Nat :=
  let days := (month * 30 + day) * 86400000
  let ms := days + time.tdiv 1000
  if !inInt64 days || !inInt64 ms then .error (.ttlRange c)
  else if ms ≤ 0 then .error (.ttlNotPositive c)
  else .ok ms.toNat

/-! ## The columns of a row -/

/-- A column of the map with its value in a row; `none` is NULL. -/
abbrev Slot := Column × Option Datum

def TableMap.slots (m : TableMap) (row : Row) : List Slot := m.cols.zip row

/-- The slot of a role that at most one column has. -/
def TableMap.slot (m : TableMap) (kind : ColKind) (row : Row) : Option Slot :=
  (m.slots row).find? (·.1.kind = kind)

/-- The key of a row. A singleton table's key is its option: the column may leave
it out, and must agree with it otherwise. -/
def TableMap.buildKey (m : TableMap) (slot : Option Slot) : Except RowError Bytes :=
  match m.singletonKey with
  | some s =>
    match slot with
    | some (c, some d) => do
      let given ← renderText c d
      if given = s then return s else .error .singletonMismatch
    | _ => .ok s
  | none =>
    match slot with
    | none => .error .noKeyColumn
    | some (c, none) => .error (.nullColumn c)
    | some (c, some d) => do
      let key ← renderText c d
      if m.keyprefix.any (fun p => !p.isPrefixOf key) then .error .keyOutsidePrefix
      else if m.keyset = some key then .error .keysetCollision
      else return key

/-- A column that defines the row and so may not be NULL. -/
def renderRequired (render : Column → Datum → Except RowError Bytes) :
    Option Slot → Except RowError (Option Bytes)
  | none => .ok none
  | some (c, none) => .error (.nullColumn c)
  | some (c, some d) => some <$> render c d

/-- A NULL field is recorded rather than left out: at flush it is an `HDEL`. -/
def renderField : Slot → Except RowError WriteArg
  | (c, none) => .ok ⟨c.field, none⟩
  | (c, some d) => do return ⟨c.field, some (← renderText c d)⟩

/-- Every mapped field of the row. A row that sets none of them is refused, but
only for an INSERT. -/
def renderFields (kind : OpKind) (slots : List Slot) : Except RowError (List WriteArg) := do
  let args ← (slots.filter (·.1.kind = .field)).mapM renderField
  if args ≠ [] ∧ kind = .insert ∧ args.all (·.data = none) then .error .allFieldsNull
  else return args

/-- The expiry of one ttl column. -/
def renderTtl : Slot → Except RowError TtlArg
  | (c, none) => .ok ⟨c.field, none⟩
  | (c, some (.interval month day time)) => do
    return ⟨c.field, some (← renderInterval c month day time)⟩
  | (c, some (.scalar _)) | (c, some (.array ..)) => .error (.datumType c)

def renderTtls (slots : List Slot) : Except RowError (List TtlArg) :=
  (slots.filter (·.1.kind = .ttl)).mapM renderTtl

/-- A position is where an element sits: a row may leave it out but not name it. -/
def checkPosition (slots : List Slot) : Except RowError Unit :=
  match slots.find? fun x => x.1.kind = .position && x.2.isSome with
  | some (c, _) => .error (.position c)
  | none => .ok ()

def packElements (c : Column) : Nat → List (Option Bytes) → Except RowError (List Bytes)
  | _, [] => .ok []
  | i, none :: _ => .error (.packedNull i)
  | i, some b :: rest => do
    let b ← renderText c (.scalar b)
    return b :: (← packElements c (i + 1) rest)

/-- The elements of a packed row's array; a NULL array means that the key should
hold nothing, and a packed hash alternates field and value. -/
def TableMap.renderPacked (m : TableMap) (row : Row) : Except RowError (List Bytes) :=
  match m.slot .legacyValue row with
  | none | some (_, none) => .ok []
  | some (c, some (.array ndim elems)) => do
    if 1 < ndim then .error (.packedDimensions ndim)
    else
      let packed ← packElements c 1 elems
      if m.tabletype = .hash ∧ packed.length % 2 ≠ 0 then .error (.packedOdd packed.length)
      else return packed
  | some (c, some (.scalar _)) | some (c, some (.interval ..)) => .error (.datumType c)

/-- The payload of a row, by table type. -/
def TableMap.renderPayload (m : TableMap) (row : Row) (op : WriteOp) : Except RowError WriteOp :=
  if m.legacyValue then do
    return { op with packed := ← m.renderPacked row }
  else if m.tabletype = .hash then do
    let fields ← renderFields op.kind (m.slots row)
    return { op with fields := fields, ttls := ← renderTtls (m.slots row) }
  else do
    checkPosition (m.slots row)
    return { op with value := ← renderRequired renderText (m.slot .value row) }

/-! ## The operations -/

/-- When an operation is buffered: the command and the nesting level it belongs to. -/
structure Stamp where
  cid : Nat
  level : Nat
deriving DecidableEq

/-- A new row as an operation, without the old identity. -/
def TableMap.render [Doubles] (m : TableMap) (kind : OpKind) (stamp : Stamp) (row : Row) :
    Except RowError WriteOp := do
  let key ← m.buildKey (m.slot .key row)
  let score ← renderRequired renderScore (m.slot .score row)
  let member ← renderRequired renderText (m.slot .member row)
  m.renderPayload row
    { kind := kind, relid := m.relid, tabletype := m.tabletype, level := stamp.level, cid := stamp.cid,
      key := key, member := member, score := score, packedShape := m.legacyValue,
      newtup := some row, keyset := m.keyset }

/-- The operation of an INSERT. -/
def TableMap.insert [Doubles] (m : TableMap) (stamp : Stamp) (row : Row) : Except RowError WriteOp :=
  m.render .insert stamp row

/-- A value the table's own scan returned: rendered without the rules for new ones. -/
def renderOld (error : RowError) : Option Slot → Except RowError Bytes
  | none => .error error
  | some (c, none) => .error (.nullIdentity c)
  | some (c, some d) => renderText c d

/-- The key a scanned row was found under. -/
def TableMap.oldKey (m : TableMap) (old : Row) : Except RowError Bytes :=
  match m.singletonKey with
  | some s => .ok s
  | none => renderOld .noKeyColumn (m.slot .key old)

/-- Whether a row is identified by a member besides its key. -/
def TableMap.wantMember (m : TableMap) : Bool :=
  !m.legacyValue && (m.tabletype = .list || m.tabletype = .set || m.tabletype = .zset)

def TableMap.oldMember (m : TableMap) (old : Row) : Except RowError (Option Bytes) :=
  if m.wantMember then some <$> renderOld .noMemberColumn (m.slot .member old) else .ok none

/-- The row `old` of a scan becomes `new`. -/
def TableMap.update [Doubles] (m : TableMap) (stamp : Stamp) (old new : Row) :
    Except RowError WriteOp := do
  if m.tabletype = .list ∧ m.legacyValue = false then .error .listUpdate
  else
    let op ← m.render .update stamp new
    let oldkey ← m.oldKey old
    return { op with oldkey := some oldkey, oldmember := ← m.oldMember old }

/-- Identity only: what is deleted is named by the row `old` of a scan. -/
def TableMap.delete (m : TableMap) (stamp : Stamp) (old : Row) : Except RowError WriteOp := do
  let key ← m.oldKey old
  let member ← m.oldMember old
  return { kind := .delete, relid := m.relid, tabletype := m.tabletype, level := stamp.level,
           cid := stamp.cid, key := key, member := member, packedShape := m.legacyValue,
           keyset := m.keyset }

/-! ## What rendering guarantees -/

/-- The payload of a rendered operation, by table type. -/
structure TableMap.PayloadOf (m : TableMap) (kind : OpKind) (row : Row) (op : WriteOp) : Prop where
  packed : m.legacyValue = true → m.renderPacked row = .ok op.packed
  fields : m.legacyValue = false → m.tabletype = .hash →
    renderFields kind (m.slots row) = .ok op.fields
  ttls : m.legacyValue = false → m.tabletype = .hash → renderTtls (m.slots row) = .ok op.ttls
  noTtls : m.legacyValue = true ∨ m.tabletype ≠ .hash → op.ttls = []
  position : m.legacyValue = false → m.tabletype ≠ .hash → checkPosition (m.slots row) = .ok ()
  value : m.legacyValue = false → m.tabletype ≠ .hash →
    renderRequired renderText (m.slot .value row) = .ok op.value

/-- A rendered operation: what it takes from the table and what from the row. -/
structure TableMap.RenderOf [Doubles] (m : TableMap) (kind : OpKind) (stamp : Stamp) (row : Row)
    (op : WriteOp) : Prop extends m.PayloadOf kind row op where
  kind_eq : op.kind = kind
  relid : op.relid = m.relid
  tabletype : op.tabletype = m.tabletype
  cid : op.cid = stamp.cid
  shape : op.packedShape = m.legacyValue
  keyset : op.keyset = m.keyset
  newtup : op.newtup = some row
  key : m.buildKey (m.slot .key row) = .ok op.key
  score : renderRequired renderScore (m.slot .score row) = .ok op.score
  member : renderRequired renderText (m.slot .member row) = .ok op.member

variable {m : TableMap} {row : Row} {op : WriteOp} {stamp : Stamp} {c : Column} {slot : Option Slot}
  {key : Bytes} {kind : ColKind}

theorem TableMap.renderPayload_spec {op' : WriteOp} (hTtls : op.ttls = [])
    (h : m.renderPayload row op = .ok op') :
    m.PayloadOf op.kind row op' ∧
      op' = { op with packed := op'.packed, fields := op'.fields, ttls := op'.ttls,
                      value := op'.value } := by
  unfold renderPayload at h
  split_ifs at h with hLegacy hHash
  · obtain ⟨packed, hPacked, h⟩ := bind_ok.mp h
    cases h
    refine ⟨⟨fun _ => hPacked, ?_, ?_, fun _ => hTtls, ?_, ?_⟩, rfl⟩ <;> simp [hLegacy]
  · obtain ⟨fields, hFields, h⟩ := bind_ok.mp h
    obtain ⟨ttls, hTtls, h⟩ := bind_ok.mp h
    cases h
    refine ⟨⟨?_, fun _ _ => hFields, fun _ _ => hTtls, ?_, ?_, ?_⟩, rfl⟩ <;> simp [hLegacy, hHash]
  · obtain ⟨_, hPosition, h⟩ := bind_ok.mp h
    obtain ⟨value, hValue, h⟩ := bind_ok.mp h
    cases h
    refine ⟨⟨?_, ?_, ?_, fun _ => hTtls, fun _ _ => hPosition, fun _ _ => hValue⟩, rfl⟩ <;>
      simp [hLegacy, hHash]

theorem TableMap.render_spec [Doubles] {kind : OpKind} (h : m.render kind stamp row = .ok op) :
    m.RenderOf kind stamp row op := by
  obtain ⟨key, hKey, h⟩ := bind_ok.mp h
  obtain ⟨score, hScore, h⟩ := bind_ok.mp h
  obtain ⟨member, hMember, h⟩ := bind_ok.mp h
  obtain ⟨hPayload, hOp⟩ := renderPayload_spec rfl h
  have hSame : ∀ {α : Type} (f : WriteOp → α), f op = f _ := fun f => congrArg f hOp
  exact
    { hPayload with
      kind_eq := hSame WriteOp.kind, relid := hSame WriteOp.relid,
      tabletype := hSame WriteOp.tabletype, cid := hSame WriteOp.cid,
      shape := hSame WriteOp.packedShape, keyset := hSame WriteOp.keyset,
      newtup := hSame WriteOp.newtup, key := hSame WriteOp.key ▸ hKey,
      score := hSame WriteOp.score ▸ hScore, member := hSame WriteOp.member ▸ hMember }

/-! ## Rendered values -/

theorem renderText_ok {d : Datum} {b : Bytes} (h : renderText c d = .ok b) :
    d = .scalar b := by
  cases d with
  | scalar text =>
    rw [renderText] at h
    split at h
    · cases h
      rfl
    · cases h
  | interval | array => cases h

theorem renderScore_ok [Doubles] {d : Datum} {b : Bytes} (h : renderScore c d = .ok b) :
    d = .scalar b := by
  obtain ⟨s, hs, h⟩ := bind_ok.mp h
  split at h
  · cases h
    exact renderText_ok hs
  · cases h

theorem renderRequired_ok {render : Column → Datum → Except RowError Bytes}
    (hRender : ∀ {c d b}, render c d = .ok b → d = .scalar b) {x : Slot} {b : Option Bytes}
    (h : renderRequired render (some x) = .ok b) : ∃ v, b = some v ∧ x.2 = some (.scalar v) := by
  obtain ⟨c, d⟩ := x
  cases d with
  | none => cases h
  | some d =>
    simp only [renderRequired, Functor.map] at h
    cases hText : render c d with
    | error e => simp [hText, Except.map] at h
    | ok v =>
      rw [hText] at h
      cases h
      exact ⟨v, rfl, by rw [hRender hText]⟩

/-- The key of a row that is not a singleton's is the text of its key column. -/
theorem TableMap.buildKey_ok (hSingleton : m.singletonKey = none) (h : m.buildKey slot = .ok key) :
    (∃ c, slot = some (c, some (.scalar key))) ∧
      m.keyprefix.all (fun p => p.isPrefixOf key) = true ∧ m.keyset ≠ some key := by
  unfold buildKey at h
  rw [hSingleton] at h
  rcases slot with _ | ⟨c, _ | d⟩
  · cases h
  · cases h
  · obtain ⟨b, hb, h⟩ := bind_ok.mp h
    split_ifs at h with hPrefix hKeyset
    cases h
    refine ⟨⟨c, by rw [renderText_ok hb]⟩, ?_, hKeyset⟩
    cases hp : m.keyprefix with
    | none => rfl
    | some p => simpa [hp] using hPrefix

theorem packElements_ok {i : Nat} {elems : List (Option Bytes)} {packed : List Bytes}
    (h : packElements c i elems = .ok packed) : elems = packed.map some := by
  induction elems generalizing i packed with
  | nil =>
    cases h
    rfl
  | cons e elems ih =>
    cases e with
    | none => cases h
    | some b =>
      obtain ⟨b', hb, h⟩ := bind_ok.mp h
      obtain ⟨rest, hRest, h⟩ := bind_ok.mp h
      cases h
      cases renderText_ok hb
      rw [List.map_cons, ih hRest]

theorem renderInterval_pos {month day time : Int} {ms : Nat}
    (h : renderInterval c month day time = .ok ms) : 0 < ms := by
  simp only [renderInterval] at h
  split_ifs at h
  cases h
  omega

/-- No rendered expiry is immediate. -/
theorem renderTtls_ne_zero {slots : List Slot} {ttls : List TtlArg}
    (h : renderTtls slots = .ok ttls) : ∀ t ∈ ttls, t.ms ≠ some 0 := by
  intro t ht
  obtain ⟨⟨c, d⟩, -, hRender⟩ := Trace.exists_of_mapM_ok h ht
  unfold renderTtl at hRender
  split at hRender
  · cases hRender
    simp
  · obtain ⟨ms, hms, hRender⟩ := bind_ok.mp hRender
    cases hRender
    have := renderInterval_pos hms
    simp only [ne_eq, Option.some.injEq]
    omega
  · cases hRender
  · cases hRender

theorem TableMap.slot_isSome (h : row.length = m.cols.length) :
    (m.slot kind row).isSome ↔ ∃ c ∈ m.cols, c.kind = kind := by
  have hCols : (m.slots row).map Prod.fst = m.cols := List.map_fst_zip (by omega)
  rw [slot, List.find?_isSome, ← hCols]
  simp

/-- The slot of a role depends on the columns of that role only. -/
theorem TableMap.slot_congr {row' : Row} (hLength : row.length = row'.length)
    (h : ∀ (i : Nat) (c : Column), m.cols[i]? = some c → c.kind = kind → row[i]? = row'[i]?) :
    m.slot kind row = m.slot kind row' := by
  unfold slot slots
  generalize m.cols = cols at h
  induction cols generalizing row row' with
  | nil => rfl
  | cons c cols ih =>
    rcases row with _ | ⟨d, row⟩ <;> rcases row' with _ | ⟨d', row'⟩
    · rfl
    · cases hLength
    · cases hLength
    · rw [List.zip_cons_cons, List.zip_cons_cons, List.find?_cons, List.find?_cons]
      by_cases hKind : c.kind = kind
      · have hHead := h 0 c rfl hKind
        simp only [List.getElem?_cons_zero, Option.some.injEq] at hHead
        simp [hKind, hHead]
      · simp only [hKind, decide_false]
        exact ih (Nat.succ.inj hLength) fun i => h (i + 1)

theorem TableMap.slot_spec {d : Option Datum} (h : m.slot kind row = some (c, d)) :
    c.kind = kind ∧ ∃ i : Nat, m.cols[i]? = some c ∧ row[i]? = some d := by
  refine ⟨by simpa using List.find?_some h, ?_⟩
  obtain ⟨i, hi⟩ := List.mem_iff_getElem?.mp (List.mem_of_find?_eq_some h)
  rw [slots, List.getElem?_zip_eq_some] at hi
  exact ⟨i, hi⟩

theorem TableMap.slot_of_sole (hSole : Sole kind m.cols) {i : Nat} {d : Option Datum}
    (hc : m.cols[i]? = some c) (hd : row[i]? = some d) (hKind : c.kind = kind) :
    m.slot kind row = some (c, d) := by
  have hMem : (c, d) ∈ m.slots row :=
    List.mem_of_getElem? (List.getElem?_zip_eq_some.mpr ⟨hc, hd⟩)
  cases hSlot : m.slot kind row with
  | none =>
    have hNone := List.find?_eq_none.mp hSlot _ hMem
    simp [hKind] at hNone
  | some s =>
    obtain ⟨hKind', j, hc', hd'⟩ := slot_spec (c := s.1) (d := s.2) hSlot
    obtain rfl := hSole hc hc' hKind hKind'
    rw [hc, Option.some.injEq] at hc'
    rw [hd, Option.some.injEq] at hd'
    rw [hc', hd']

theorem TableMap.mem_slots {x : Slot} :
    x ∈ m.slots row ↔ ∃ i : Nat, m.cols[i]? = some x.1 ∧ row[i]? = some x.2 := by
  rw [List.mem_iff_getElem?]
  simp only [slots, List.getElem?_zip_eq_some]

theorem TableMap.slot_of_mem (hSole : Sole kind m.cols) {x : Slot} (hx : x ∈ m.slots row)
    (hKind : x.1.kind = kind) : m.slot kind row = some x := by
  obtain ⟨i, hc, hd⟩ := mem_slots.mp hx
  exact slot_of_sole hSole hc hd hKind

theorem TableMap.mem_of_slot {x : Slot} (h : m.slot kind row = some x) :
    x ∈ m.slots row ∧ x.1.kind = kind :=
  ⟨List.mem_of_find?_eq_some h, (slot_spec (c := x.1) (d := x.2) h).1⟩

theorem TableMap.buildKey_text {d : Datum} (h : m.buildKey (some (c, some d)) = .ok key) :
    d = .scalar key := by
  cases hs : m.singletonKey with
  | some s =>
    simp only [buildKey, hs] at h
    obtain ⟨b, hb, h⟩ := bind_ok.mp h
    split_ifs at h with hSame
    cases h
    rw [renderText_ok hb, hSame]
  | none =>
    obtain ⟨⟨c', hSlot⟩, -⟩ := buildKey_ok hs h
    cases hSlot
    rfl

theorem TableMap.buildKey_null (h : m.buildKey (some (c, none)) = .ok key) :
    m.singletonKey = some key := by
  unfold buildKey at h
  cases hs : m.singletonKey with
  | some s =>
    rw [hs] at h
    cases h
    rfl
  | none =>
    rw [hs] at h
    cases h

theorem TableMap.buildKey_singleton {s : Bytes} (hs : m.singletonKey = some s)
    (h : m.buildKey slot = .ok key) : key = s := by
  unfold buildKey at h
  rw [hs] at h
  dsimp only at h
  split at h
  · obtain ⟨b, -, h⟩ := bind_ok.mp h
    split_ifs at h
    exact (Except.ok.inj h).symm
  · exact (Except.ok.inj h).symm

/-- A new key of a table is not the name of the table's own keyset. -/
theorem TableMap.buildKey_ne_keyset (hValid : m.Valid) (h : m.buildKey slot = .ok key) :
    m.keyset ≠ some key := by
  unfold buildKey at h
  split at h
  · rename_i s hs
    have hNone := (hValid.singleton.resolve_left (by simp [hs])).2
    simp [hNone]
  · rcases slot with _ | ⟨c, _ | d⟩
    · cases h
    · cases h
    · obtain ⟨b, -, h⟩ := bind_ok.mp h
      split_ifs at h with hPrefix hKeyset
      cases h
      exact hKeyset

/-- A key that the statement does not change is the one the scan found. -/
theorem TableMap.oldKey_of_buildKey {old new : Row} {k : Bytes}
    (hSlot : m.slot .key old = m.slot .key new) (hKey : m.buildKey (m.slot .key new) = .ok key)
    (hOld : m.oldKey old = .ok k) : k = key := by
  unfold oldKey at hOld
  cases hs : m.singletonKey with
  | some s =>
    simp only [hs] at hOld
    cases hOld
    exact (buildKey_singleton hs hKey).symm
  | none =>
    unfold buildKey at hKey
    simp only [hs, hSlot] at hOld hKey
    rcases hFound : m.slot .key new with _ | ⟨c, _ | d⟩
    · simp [hFound, renderOld] at hOld
    · simp [hFound] at hKey
    · simp only [hFound, renderOld] at hOld hKey
      obtain ⟨b, hb, h⟩ := bind_ok.mp hKey
      rw [hb] at hOld
      cases hOld
      split_ifs at h
      exact Except.ok.inj h

theorem TableMap.render_old [Doubles] {kind : OpKind} (h : m.render kind stamp row = .ok op) :
    op.oldkey = none ∧ op.oldmember = none := by
  obtain ⟨key, hKey, h⟩ := bind_ok.mp h
  obtain ⟨score, hScore, h⟩ := bind_ok.mp h
  obtain ⟨member, hMember, h⟩ := bind_ok.mp h
  obtain ⟨-, hOp⟩ := renderPayload_spec rfl h
  exact ⟨congrArg WriteOp.oldkey hOp, congrArg WriteOp.oldmember hOp⟩

/-- An UPDATE renders the new row, and adds the identity the scan found. -/
theorem TableMap.update_spec [Doubles] {old new : Row} (h : m.update stamp old new = .ok op) :
    ∃ op₀ k om, m.RenderOf .update stamp new op₀ ∧ m.oldKey old = .ok k ∧
      m.oldMember old = .ok om ∧ op = { op₀ with oldkey := some k, oldmember := om } := by
  unfold update at h
  split_ifs at h
  obtain ⟨op₀, hRender, h⟩ := bind_ok.mp h
  obtain ⟨k, hKey, h⟩ := bind_ok.mp h
  obtain ⟨om, hMember, h⟩ := bind_ok.mp h
  exact ⟨op₀, k, om, render_spec hRender, hKey, hMember, (Except.ok.inj h).symm⟩

/-! ## The operations of a table -/

/-- A row as the executor passes it: a value for each attribute, none for a dropped one. -/
structure TableMap.Fits (m : TableMap) (row : Row) : Prop where
  length : row.length = m.cols.length
  dropped : ∀ (i : Nat) (c : Column), m.cols[i]? = some c → c.kind = .dropped → row[i]? = some none

/-- An operation that an INSERT, UPDATE or DELETE through the table buffers. -/
inductive TableMap.Buffers [Doubles] (m : TableMap) : WriteOp → Prop
  | insert {stamp : Stamp} {row : Row} {op : WriteOp} (hRow : m.Fits row)
      (h : m.insert stamp row = .ok op) : Buffers m op
  | update {stamp : Stamp} {old new : Row} {op : WriteOp} (hOld : m.Fits old) (hNew : m.Fits new)
      (h : m.update stamp old new = .ok op) : Buffers m op
  | delete {stamp : Stamp} {old : Row} {op : WriteOp} (hOld : m.Fits old)
      (h : m.delete stamp old = .ok op) : Buffers m op

/-- Identity only: what a DELETE buffers. -/
structure TableMap.DeleteOf (m : TableMap) (old : Row) (op : WriteOp) : Prop where
  kind_eq : op.kind = .delete
  relid : op.relid = m.relid
  tabletype : op.tabletype = m.tabletype
  shape : op.packedShape = m.legacyValue
  keyset : op.keyset = m.keyset
  newtup : op.newtup = none
  key : m.oldKey old = .ok op.key
  member : m.oldMember old = .ok op.member
  oldkey : op.oldkey = none
  oldmember : op.oldmember = none

theorem TableMap.delete_spec {old : Row} (h : m.delete stamp old = .ok op) : m.DeleteOf old op := by
  obtain ⟨key, hKey, h⟩ := bind_ok.mp h
  obtain ⟨member, hMember, h⟩ := bind_ok.mp h
  cases h
  exact ⟨rfl, rfl, rfl, rfl, rfl, rfl, hKey, hMember, rfl, rfl⟩

section Buffers

variable [Doubles] {m : TableMap} {op : WriteOp}

/-- An operation of the table renders a row, or deletes one. -/
theorem TableMap.Buffers.cases' (h : m.Buffers op) :
    (op.kind ≠ .delete ∧ ∃ stamp row, m.Fits row ∧ m.RenderOf op.kind stamp row op) ∨
      ∃ old, m.Fits old ∧ m.DeleteOf old op := by
  cases h with
  | insert hRow h =>
    have hRender := render_spec h
    rw [hRender.kind_eq]
    exact .inl ⟨by simp, _, _, hRow, hRender⟩
  | @update stamp old new _ hOld hNew h =>
    obtain ⟨op₀, k, om, hRender, -, -, rfl⟩ := update_spec h
    refine .inl ⟨by simp [hRender.kind_eq], stamp, new, hNew, ?_⟩
    exact { hRender with kind_eq := rfl, fields := hRender.kind_eq.symm ▸ hRender.fields }
  | delete hOld h => exact .inr ⟨_, hOld, delete_spec h⟩

theorem TableMap.Buffers.ofTable (h : m.Buffers op) :
    op.relid = m.relid ∧ op.tabletype = m.tabletype ∧ op.packedShape = m.legacyValue ∧
      op.keyset = m.keyset := by
  rcases h.cases' with ⟨-, _, _, -, hRender⟩ | ⟨_, -, hDelete⟩
  · exact ⟨hRender.relid, hRender.tabletype, hRender.shape, hRender.keyset⟩
  · exact ⟨hDelete.relid, hDelete.tabletype, hDelete.shape, hDelete.keyset⟩

theorem TableMap.Buffers.rendered (h : m.Buffers op) (hKind : op.kind ≠ .delete) :
    ∃ stamp row, m.Fits row ∧ m.RenderOf op.kind stamp row op := by
  rcases h.cases' with ⟨-, hRendered⟩ | ⟨_, -, hDelete⟩
  · exact hRendered
  · exact absurd hDelete.kind_eq hKind

end Buffers

end ValkeyFdw
