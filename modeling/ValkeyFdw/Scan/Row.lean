import ValkeyFdw.Server.Read
import ValkeyFdw.Table.Render

/-!
# The rows of one key

A scan asks several questions about a key in one batch: whether it is in the
table's keyset, how many fields it has, when they expire, and its value. The
replies become no row, one row, or one row for each member of a collection.
-/

namespace ValkeyFdw

/-! ## Reading column values -/

/-- The input function of a column's type, or of its element type for an array:
the text the value read prints, or `none` where it raises. -/
class Inputs where
  read : Column → Bytes → Option Bytes

/-- Columns of type `text`: every value reads as it is. -/
@[reducible] def verbatim : Inputs where
  read _ data := some data

/-- The errors of a read. -/
inductive ReadError where
  | input (col : Column)
  | ttlRange (ms : Int)
  | valueShape
deriving DecidableEq

/-- The input function of the column's type. -/
def readText [Inputs] (c : Column) (data : Bytes) : Except ReadError Bytes :=
  match Inputs.read c data with
  | some text => .ok text
  | none => .error (.input c)

/-- Store one value; no data is NULL. -/
def storeText [Inputs] (c : Column) : Option Bytes → Except ReadError (Option Datum)
  | none => .ok none
  | some data => do return some (.scalar (← readText c data))

/-- The bytes of a reply that carries any. -/
def Resp.str : Resp → Option Bytes
  | .string data => some data
  | .nil | .integer _ | .array _ | .map _ | .set _ | .wrongType => none

def Resp.elems : Resp → List Resp
  | .array elems | .map elems | .set elems => elems
  | .nil | .integer _ | .string _ | .wrongType => []

/-- Every scalar of the row survives being written and read back. -/
def TableMap.Survives [Inputs] (m : TableMap) (row : Row) : Prop :=
  ∀ (i : Nat) (c : Column) (b : Bytes), m.cols[i]? = some c → row[i]? = some (some (.scalar b)) →
    Inputs.read c b = some b

/-! ## What the table asks for -/

namespace TableMap

variable (m : TableMap)

/-- The fields `HMGET` names: those of the field and ttl columns, in map order. -/
def requested : List Bytes :=
  (m.cols.filter fun c => c.kind = .field || c.kind = .ttl).map Column.field

/-- The fields whose expiry is asked for, in the order of their columns. -/
def ttlFields : List Bytes := (m.cols.filter (·.kind = .ttl)).map Column.field

/-- Whether a hash is read by `HMGET`, which needs a field to ask for. -/
def hmget : Bool := m.tabletype = .hash && !m.legacyValue && m.requested ≠ []

/-- The place of a field column's answer among those of `HMGET`. -/
def fieldSlot (i : Nat) : Nat :=
  ((m.cols.take i).filter fun c => c.kind = .field || c.kind = .ttl).length

def ttlSlot (i : Nat) : Nat := ((m.cols.take i).filter (·.kind = .ttl)).length

/-- One row for each member, or one for each key. -/
def isMultirow : Bool :=
  !m.legacyValue && (m.tabletype = .list || m.tabletype = .set || m.tabletype = .zset)

/-- The command that reads the value of a key. -/
def valueCommand [Listing] : Option Value → Resp :=
  match m.tabletype with
  | .hash => if m.hmget then Server.hmget m.requested else Server.hgetall
  | .list => Server.lrange
  | .set => Server.smembers
  | .zset => if m.legacyValue then Server.zrange else Server.zrangeWithScores
  | .string | .vector => Server.get

end TableMap

/-- The replies to the questions about one key. -/
structure Fetched where
  member : Option Bool
  hlen : Option Int
  ttls : List Int
  value : Resp

/-- The expiries copied out of the reply to `HPTTL`; what it does not answer is absent. -/
def takeTtls (n : Nat) (reply : Resp) : List Int :=
  (List.range n).map fun i =>
    match reply with
    | .array elems | .map elems =>
      match elems[i]? with
      | some (.integer ms) => ms
      | _ => -2
    | _ => -2

/-- The keyset verdict: only an integer is an answer. -/
def takeMember : Resp → Option Bool
  | .integer n => some (n ≠ 0)
  | _ => none

def takeLength : Resp → Option Int
  | .integer n => some n
  | _ => none

/-- Ask about a key and take the replies. The keyset is asked only about keys
that the plan named: the others came from it. -/
def TableMap.takeReplies [Listing] (m : TableMap) (now : Nat) (named : Bool) (ks : Keyspace)
    (key : Bytes) : Fetched where
  member :=
    match m.keyset with
    | some s => if named then takeMember (Server.sismember key (ks s)) else none
    | none => none
  hlen := if m.hmget then takeLength (Server.hlen (ks key)) else none
  ttls := takeTtls m.ttlFields.length (Server.hpttl now m.ttlFields (ks key))
  value := m.valueCommand (ks key)

/-! ## Filling a row -/

/-- The value of a field in a reply that alternates field and value. -/
def hashLookup : List Resp → Bytes → Option Bytes
  | k :: v :: rest, f => if k.str = some f then v.str else hashLookup rest f
  | _, _ => none

def TableMap.fieldData (m : TableMap) (i : Nat) (c : Column) (reply : Resp) : Option Bytes :=
  match reply with
  | .array elems | .map elems =>
    if m.hmget then elems[m.fieldSlot i]?.bind Resp.str else hashLookup elems c.field
  | _ => none

/-- The member of one row of a collection, with its score if that is wanted:
RESP2 alternates the two, RESP3 nests them. -/
def memberAt (reply : Resp) (i : Nat) (wantScore : Bool) : Option (Resp × Option Resp) :=
  match reply.elems[i]? with
  | none => none
  | some e =>
    if wantScore then
      match reply.elems.head? with
      | some (.array _) =>
        match e with
        | .array (x :: score :: _) => some (x, some score)
        | _ => none
      | _ => reply.elems[i + 1]?.map fun score => (e, some score)
    else some (e, none)

/-- How far the element index advances for each row. -/
def memberStride (t : TableType) (reply : Resp) : Nat :=
  if t ≠ .zset then 1
  else match reply.elems.head? with
    | some (.array _) => 1
    | _ => 2

/-- The whole collection as one array. -/
def storePacked [Inputs] (c : Column) (reply : Resp) : Except ReadError (Option Datum) := do
  let elems ← reply.elems.mapM fun e =>
    match e.str with
    | none => .ok none
    | some data => some <$> readText c data
  return some (.array (if elems = [] then 0 else 1) elems)

/-- A duration the server reported, as an interval in microseconds. -/
def ttlDatum (ms : Int) : Except ReadError (Option Datum) :=
  if ms < 0 then .ok none
  else if (2 ^ 63 - 1) / 1000 < ms then .error (.ttlRange ms)
  else .ok (some (.interval 0 0 (ms * 1000)))

/-- One column of a row; `elem` is the element the row is about. -/
def TableMap.fillColumn [Inputs] (m : TableMap) (key : Bytes) (ttls : List Int) (reply : Resp)
    (elem i : Nat) (c : Column) : Except ReadError (Option Datum) :=
  match c.kind with
  | .key => storeText c (some key)
  | .value =>
    match reply with
    | .string data => storeText c (some data)
    | _ => .ok none
  | .field => storeText c (m.fieldData i c reply)
  | .legacyValue => storePacked c reply
  | .member => storeText c ((memberAt reply elem (m.tabletype = .zset)).bind (·.1.str))
  | .score => storeText c ((memberAt reply elem true).bind fun p => p.2.bind Resp.str)
  | .ttl => ttlDatum (ttls[m.ttlSlot i]?.getD (-2))
  | .position => .ok (some (.scalar (decimal elem)))
  | .distance | .dropped => .ok none

/-- The row of one element: every column from its part of the replies. -/
def TableMap.fill [Inputs] (m : TableMap) (key : Bytes) (ttls : List Int) (reply : Resp)
    (elem : Nat) : Except ReadError Row :=
  m.cols.zipIdx.mapM fun (c, i) => m.fillColumn key ttls reply elem i c

/-! ## The rows of a key -/

/-- No usable value: the key is not there, or holds a type this table does not read. -/
def Resp.isSkippable : Resp → Bool
  | .nil | .wrongType => true
  | .integer _ | .string _ | .array _ | .map _ | .set _ => false

/-- Only `GET` answers an absent key with a nil. `HMGET` answers as many times as
it was asked, so that the length decides. -/
def TableMap.isAbsent (m : TableMap) (f : Fetched) : Bool :=
  if m.tabletype = .string then false
  else match f.value with
    | .array elems | .map elems | .set elems =>
      if m.hmget then f.hlen = some 0 else elems = []
    | _ => false

def TableMap.producesNothing (m : TableMap) (f : Fetched) : Bool :=
  f.member = some false || f.value.isSkippable || m.isAbsent f

/-- The shapes a value reply may have. -/
def TableMap.expectValue (m : TableMap) (reply : Resp) : Except ReadError Unit :=
  match m.tabletype, reply with
  | .string, .string _ => .ok ()
  | .string, _ => .error .valueShape
  | _, .array _ | _, .map _ | _, .set _ => .ok ()
  | _, _ => .error .valueShape

/-- The rows of a collection from the element `i` on; `fuel` bounds the elements left. -/
def TableMap.emitMembers [Inputs] (m : TableMap) (key : Bytes) (ttls : List Int) (reply : Resp) :
    Nat → Nat → Except ReadError (List Row)
  | 0, _ => .ok []
  | fuel + 1, i =>
    if reply.elems.length ≤ i then .ok []
    else do
      let row ← m.fill key ttls reply i
      return row :: (← m.emitMembers key ttls reply fuel (i + memberStride m.tabletype reply))

/-- What a key that this transaction has not touched contributes to a scan. -/
def TableMap.emit [Inputs] (m : TableMap) (key : Bytes) (f : Fetched) :
    Except ReadError (List Row) :=
  if m.producesNothing f then .ok []
  else do
    m.expectValue f.value
    if m.isMultirow then m.emitMembers key f.ttls f.value f.value.elems.length 0
    else return [← m.fill key f.ttls f.value 0]

/-- The rows that a server's replies about a key make up. -/
def TableMap.serverRows [Listing] [Inputs] (m : TableMap) (now : Nat) (named : Bool) (ks : Keyspace)
    (key : Bytes) : Except ReadError (List Row) :=
  m.emit key (m.takeReplies now named ks key)

/-! ## Filled rows -/

section Filled

variable [Inputs] {m : TableMap} {key : Bytes} {ttls : List Int} {reply : Resp} {elem : Nat}
  {row : Row}

theorem TableMap.fill_ok : m.fill key ttls reply elem = .ok row ↔
    row.length = m.cols.length ∧ ∀ (i : Nat) (c : Column), m.cols[i]? = some c →
      ∃ d, row[i]? = some d ∧ m.fillColumn key ttls reply elem i c = .ok d := by
  rw [fill, Trace.mapM_ok_getElem?, List.length_zipIdx]
  refine and_congr_right fun _ => ⟨fun h i c hc => ?_, fun h i x hx => ?_⟩
  · exact h i (c, i) (by simp [List.getElem?_zipIdx, hc])
  · obtain ⟨c, hc, rfl⟩ : ∃ c, m.cols[i]? = some c ∧ (c, i) = x := by
      simpa [List.getElem?_zipIdx] using hx
    exact h i c hc

theorem storeText_ok {c : Column} {data : Bytes} {d : Option Datum}
    (h : storeText c (some data) = .ok d) : ∃ b, Inputs.read c data = some b ∧ d = some (.scalar b) := by
  obtain ⟨b, hb, h⟩ := bind_ok.mp h
  unfold readText at hb
  split at hb
  · rename_i text hRead
    cases hb
    exact ⟨b, hRead, (Except.ok.inj h).symm⟩
  · cases hb

theorem storeText_eq {c : Column} {data b : Bytes} (h : Inputs.read c data = some b) :
    storeText c (some data) = .ok (some (.scalar b)) := by
  simp [storeText, readText, h, bind, Except.bind, pure, Except.pure]

theorem TableMap.mem_emitMembers {fuel i : Nat} {rows : List Row}
    (h : m.emitMembers key ttls reply fuel i = .ok rows) (hRow : row ∈ rows) :
    ∃ elem, m.fill key ttls reply elem = .ok row := by
  induction fuel generalizing i rows with
  | zero =>
    cases h
    cases hRow
  | succ fuel ih =>
    rw [emitMembers] at h
    split at h
    · cases h
      cases hRow
    · obtain ⟨first, hFirst, h⟩ := bind_ok.mp h
      obtain ⟨rest, hRest, h⟩ := bind_ok.mp h
      cases h
      rcases List.mem_cons.mp hRow with rfl | hRow
      · exact ⟨i, hFirst⟩
      · exact ih hRest hRow

/-- Every row of a key is filled from one set of replies. -/
theorem TableMap.mem_emit {f : Fetched} {rows : List Row} (h : m.emit key f = .ok rows)
    (hRow : row ∈ rows) : ∃ elem, m.fill key f.ttls f.value elem = .ok row := by
  rw [emit] at h
  split at h
  · cases h
    cases hRow
  · obtain ⟨_, -, h⟩ := bind_ok.mp h
    split at h
    · exact mem_emitMembers h hRow
    · obtain ⟨first, hFirst, h⟩ := bind_ok.mp h
      cases h
      obtain rfl := List.mem_singleton.mp hRow
      exact ⟨0, hFirst⟩

end Filled

end ValkeyFdw
