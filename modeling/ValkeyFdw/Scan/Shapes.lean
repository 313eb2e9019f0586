import ValkeyFdw.Scan.Stored

/-!
# Replies of two shapes

The rows of a key do not depend on the shape of the reply they are decoded from.

A hash can be read by `HGETALL`, whose reply names each field, or by `HMGET`, whose
reply has one answer for each field the table asked for. One walk over the columns
gives each field column the place of its answer (`planHashFetch`), and another asks
for the fields; a third reply, that of `HLEN`, says whether the key is there at all.

The scores of a sorted set come as a flat list under RESP2, and as a list of pairs
under RESP3. The member loop advances by the number of answers that make up a row.
-/

namespace ValkeyFdw

open Server Trace

/-! ## Hashes by `HMGET` and by `HGETALL` -/

/-- The walk that plans the reading of a hash: the place of each field column's
answer, and the number of fields asked for. A ttl column asks for its field too. -/
def planHashFetch : List Column → Nat → List (Option Nat) × Nat
  | [], nreq => ([], nreq)
  | c :: cols, nreq =>
    if c.kind = .field then
      let (slots, n) := planHashFetch cols (nreq + 1)
      (some nreq :: slots, n)
    else if c.kind = .ttl then
      let (slots, n) := planHashFetch cols (nreq + 1)
      (none :: slots, n)
    else
      let (slots, n) := planHashFetch cols nreq
      (none :: slots, n)

/-- `HMGET` answers as many times as it was asked, so that the length decides. -/
def Fetched.hashAbsent (byFields : Bool) (f : Fetched) : Bool :=
  match f.value with
  | .array elems | .map elems | .set elems => if byFields then f.hlen = some 0 else elems = []
  | .nil | .integer _ | .string _ | .wrongType => false

namespace TableMap

variable (m : TableMap)

/-- The fields the command names, in the order of the columns. -/
def requestFields : List Column → List Bytes
  | [] => []
  | c :: cols =>
    if c.kind ≠ .field ∧ c.kind ≠ .ttl then requestFields cols else c.field :: requestFields cols

def hashCommand [Listing] (byFields : Bool) : Option Value → Resp :=
  if byFields then Server.hmget (requestFields m.cols) else hgetall

/-- A field column, from whichever reply was asked for. -/
def storeField (byFields : Bool) (i : Nat) (c : Column) (reply : Resp) : Option Bytes :=
  match reply with
  | .array elems | .map elems =>
    if byFields then
      match (planHashFetch m.cols 0).1[i]? with
      | some (some slot) => elems[slot]?.bind Resp.str
      | _ => none
    else hashLookup elems c.field
  | .nil | .integer _ | .string _ | .set _ | .wrongType => none

def fillHash [Inputs] (byFields : Bool) (key : Bytes) (ttls : List Int) (reply : Resp) :
    Except ReadError Row :=
  m.cols.zipIdx.mapM fun (c, i) =>
    if c.kind = .field then storeText c (m.storeField byFields i c reply)
    else m.fillColumn key ttls reply 0 i c

/-- The replies about a hash key, read one way or the other. -/
def takeHash [Listing] (byFields : Bool) (now : Nat) (named : Bool) (ks : Keyspace) (key : Bytes) :
    Fetched :=
  { m.takeReplies now named ks key with
    hlen := if byFields then takeLength (hlen (ks key)) else none
    value := m.hashCommand byFields (ks key) }

/-- The rows of a hash key, read one way or the other. -/
def hashRows [Listing] [Inputs] (byFields : Bool) (now : Nat) (named : Bool) (ks : Keyspace)
    (key : Bytes) : Except ReadError (List Row) :=
  let f := m.takeHash byFields now named ks key
  if f.member = some false || f.value.isSkippable || f.hashAbsent byFields then .ok []
  else do
    m.expectValue f.value
    return [← m.fillHash byFields key f.ttls f.value]

/-! ## The walks agree -/

variable {m}

theorem requestFields_eq (cols : List Column) : requestFields cols =
    (cols.filter fun c => c.kind = .field || c.kind = .ttl).map Column.field := by
  induction cols with
  | nil => rfl
  | cons c cols ih =>
    rw [requestFields, ih]
    by_cases hField : c.kind = .field
    · simp [hField]
    · by_cases hTtl : c.kind = .ttl <;> simp [hField, hTtl]

/-- A field column's answer stands behind those of the columns before it. -/
theorem planHashFetch_slot (cols : List Column) (nreq : Nat) {i : Nat} {c : Column}
    (hc : cols[i]? = some c) (hKind : c.kind = .field) :
    (planHashFetch cols nreq).1[i]? = some (some (nreq +
      ((cols.take i).filter fun c => c.kind = .field || c.kind = .ttl).length)) := by
  induction cols generalizing nreq i with
  | nil => simp at hc
  | cons d cols ih =>
    rw [planHashFetch]
    cases i with
    | zero =>
      obtain rfl : d = c := by simpa using hc
      simp [hKind]
    | succ i =>
      have hRest := fun n => ih n (i := i) (by simpa using hc)
      by_cases hField : d.kind = .field
      · simp [hField, hRest]
        omega
      · by_cases hTtl : d.kind = .ttl
        · simp [hTtl, hRest]
          omega
        · simp [hField, hTtl, hRest]

theorem hashLookup_pairs (h : Fields) (l : List Bytes) (f : Bytes) :
    hashLookup (l.flatMap fun g =>
        [Resp.string g, (h.lookup g).elim .nil fun x => .string x.data]) f =
      if f ∈ l then (h.lookup f).map HField.data else none := by
  induction l with
  | nil => rfl
  | cons g l ih =>
    rw [List.flatMap_cons]
    simp only [List.cons_append, List.nil_append, hashLookup, Resp.str, Option.some.injEq, ih]
    by_cases hg : g = f
    · subst hg
      cases h.lookup g <;> simp
    · simp [hg, Ne.symm hg]

section Fields

variable [Listing] {ks : Keyspace} {key : Bytes} {h : Fields}

/-- Whichever way the hash is read, a field column finds its own field. -/
theorem storeField_eq (byFields : Bool) (hRead : hashes.read (ks key) = some h) {i : Nat}
    {c : Column} (hc : m.cols[i]? = some c) (hKind : c.kind = .field) :
    m.storeField byFields i c (m.hashCommand byFields (ks key)) =
      (h.lookup c.field).map HField.data := by
  cases byFields with
  | true =>
    have hSlot : (requestFields m.cols)[((m.cols.take i).filter fun c =>
        c.kind = .field || c.kind = .ttl).length]? = some c.field := by
      rw [requestFields_eq, List.getElem?_map, getElem?_filter_of_getElem? hc (by simp [hKind])]
      rfl
    simp only [storeField, hashCommand, if_true, Server.hmget, onRead_of_read hRead,
      planHashFetch_slot m.cols 0 hc hKind, Nat.zero_add, List.getElem?_map, hSlot,
      Option.map_some, Option.bind_some]
    cases h.lookup c.field <;> rfl
  | false =>
    have hPairs := hashLookup_pairs h (Listing.members h.keys) c.field
    have hAll : (if c.field ∈ Listing.members h.keys then (h.lookup c.field).map HField.data
        else none) = (h.lookup c.field).map HField.data := by
      split
      · rfl
      · rename_i hNot
        rw [Listing.mem_members, Finmap.mem_keys] at hNot
        rw [Finmap.lookup_eq_none.mpr hNot]
        rfl
    rw [hAll] at hPairs
    simp only [storeField, hashCommand, Bool.false_eq_true, if_false, hgetall, onRead_of_read hRead,
      container]
    cases Listing.protocol <;> exact hPairs

variable [Inputs] {now : Nat} {named : Bool}

/-- Either reading finds a row if the key is there, unless the keyset leaves it out. -/
theorem hashRows_eq (byFields : Bool) (hType : m.tabletype = .hash)
    (hRead : hashes.read (ks key) = some h) :
    m.hashRows byFields now named ks key =
      if (m.takeReplies now named ks key).member = some false ∨ h = ∅ then .ok []
      else (m.fillHash byFields key (m.takeReplies now named ks key).ttls
        (m.hashCommand byFields (ks key))).map fun row => [row] := by
  have hKeys : h.keys = ∅ ↔ h = ∅ := by
    constructor
    · exact fun hEmpty => by_contra fun hne => keys_ne_empty hne hEmpty
    · rintro rfl
      rfl
  obtain ⟨elems, hReply⟩ : ∃ elems, (m.hashCommand byFields (ks key)).IsContainer elems := by
    cases byFields with
    | true => exact ⟨_, .inl (onRead_of_read hRead)⟩
    | false =>
      rw [show m.hashCommand false (ks key) = _ from onRead_of_read hRead]
      exact ⟨_, isContainer_map _⟩
  have hAbsent : (m.takeHash byFields now named ks key).hashAbsent byFields = true ↔ h = ∅ := by
    rw [← hKeys]
    cases byFields with
    | true =>
      have hLength : takeLength (hlen (ks key)) = some (h.keys.card : Int) := by
        rw [hlen, onRead_of_read hRead]
        rfl
      simp only [Fetched.hashAbsent, takeHash, hLength, if_true]
      rcases hReply with hReply | hReply | hReply <;> rw [hReply] <;> simp
    | false =>
      have hElems : elems = [] ↔ h.keys = ∅ := by
        have hSame := hReply.elems_eq
        rw [show m.hashCommand false (ks key) = _ from onRead_of_read hRead,
          (container_elems _).1] at hSame
        rw [← hSame]
        constructor
        · intro hNil
          by_contra hne
          obtain ⟨f, rest, hMembers⟩ := List.exists_cons_of_ne_nil (members_ne_nil hne)
          simp [hMembers] at hNil
        · intro hEmpty
          have hNone : Listing.members h.keys = [] := by
            refine List.eq_nil_iff_forall_not_mem.mpr fun f hf => ?_
            rw [Listing.mem_members, hEmpty] at hf
            exact Finset.notMem_empty f hf
          simp [hNone]
      rw [← hElems]
      simp only [Fetched.hashAbsent, takeHash, Bool.false_eq_true, if_false]
      rcases hReply with hReply | hReply | hReply <;> rw [hReply] <;> simp
  have hSkip : (m.hashCommand byFields (ks key)).isSkippable = false := by
    rcases hReply with hReply | hReply | hReply <;> rw [hReply] <;> rfl
  have hExpect : m.expectValue (m.hashCommand byFields (ks key)) = .ok () := by
    unfold expectValue
    rw [hType]
    rcases hReply with hReply | hReply | hReply <;> rw [hReply]
  have hMember : (m.takeHash byFields now named ks key).member =
      (m.takeReplies now named ks key).member := rfl
  have hValue : (m.takeHash byFields now named ks key).value = m.hashCommand byFields (ks key) := rfl
  have hTtls : (m.takeHash byFields now named ks key).ttls =
      (m.takeReplies now named ks key).ttls := rfl
  unfold hashRows
  simp only [hMember, hValue, hTtls, hSkip, hExpect, Bool.or_false, Bool.or_eq_true,
    decide_eq_true_eq, hAbsent]
  split
  · rfl
  · cases m.fillHash byFields key (m.takeReplies now named ks key).ttls
      (m.hashCommand byFields (ks key)) <;> rfl

theorem fillHash_eq (hKinds : ∀ c ∈ m.cols, (c.kind = .key ∨ c.kind = .dropped) ∨
      c.kind = .field ∨ c.kind = .ttl) (hRead : hashes.read (ks key) = some h) (ttls : List Int) :
    m.fillHash true key ttls (m.hashCommand true (ks key)) =
      m.fillHash false key ttls (m.hashCommand false (ks key)) := by
  refine mapM_congr fun x hx => ?_
  have hc := List.mem_zipIdx_iff_getElem?.mp hx
  rcases hKinds x.1 (List.mem_of_getElem? hc) with (hKind | hKind) | hKind | hKind
  · simp [hKind, fillColumn]
  · simp [hKind, fillColumn]
  · simp only [hKind, if_true]
    rw [storeField_eq true hRead hc hKind, storeField_eq false hRead hc hKind]
  · simp [hKind, fillColumn]

/-- A table that asks for fields is read by `HMGET`. -/
theorem serverRows_hmget (hHmget : m.hmget = true) :
    m.serverRows now named ks key = m.hashRows true now named ks key := by
  have hTable : m.tabletype = .hash := by
    simp only [hmget, Bool.and_eq_true, decide_eq_true_eq] at hHmget
    exact hHmget.1.1
  have hCommand : m.valueCommand (ks key) = m.hashCommand true (ks key) := by
    simp only [valueCommand, hTable, hHmget, hashCommand, if_true, requestFields_eq, requested]
  have hFetched : m.takeReplies now named ks key = m.takeHash true now named ks key := by
    rw [takeHash, ← hCommand]
    simp only [takeReplies, hHmget, if_true]
  have hFill : ∀ ttls reply, m.fill key ttls reply 0 = m.fillHash true key ttls reply := by
    intro ttls reply
    refine mapM_congr fun x hx => ?_
    have hc := List.mem_zipIdx_iff_getElem?.mp hx
    dsimp only
    split
    · rename_i hKind
      have hSlot := planHashFetch_slot m.cols 0 hc hKind
      rw [Nat.zero_add] at hSlot
      simp only [fillColumn, hKind, fieldData, storeField, hHmget, if_true, hSlot, fieldSlot]
      cases reply <;> rfl
    · rfl
  have hAbsent : ∀ f : Fetched, m.isAbsent f = f.hashAbsent true := by
    intro f
    rw [isAbsent, if_neg (by simp [hTable]), Fetched.hashAbsent, hHmget]
    cases f.value <;> rfl
  have hOne : m.isMultirow = false := by simp [isMultirow, hTable]
  simp only [serverRows, emit, hashRows, producesNothing, hFetched, hAbsent, hOne, hFill]
  rfl

end Fields

end TableMap

/-- For any columns of a hash table, whatever their order and whichever of them name
one field: the rows of a key are decoded from `HLEN` and `HMGET`, they are those that
`HGETALL` would give, and there is one exactly if the key is there. -/
theorem hmget_rows_eq_hgetall [Listing] [Inputs] (m : TableMap) (hType : m.tabletype = .hash)
    (hMapped : m.legacyValue = false)
    (hKinds : ∀ c ∈ m.cols, (c.kind = .key ∨ c.kind = .dropped) ∨ c.kind = .field ∨ c.kind = .ttl)
    (hAsks : ∃ c ∈ m.cols, c.kind = .field ∨ c.kind = .ttl) (now : Nat) (named : Bool)
    (ks : Keyspace) (key : Bytes) (hHash : HoldsType .hash (ks key)) :
    m.serverRows now named ks key = m.hashRows true now named ks key ∧
    m.hashRows true now named ks key = m.hashRows false now named ks key ∧
    ((m.takeReplies now named ks key).member ≠ some false →
      if (ks key).isSome then
        ∃ r : Except ReadError Row, m.hashRows true now named ks key = r.map fun row => [row]
      else m.hashRows true now named ks key = .ok []) := by
  obtain ⟨h, hRead⟩ := (hashes.read_iff (ks key)).mpr hHash
  have hHmget : m.hmget = true := by
    obtain ⟨c, hc, hKind⟩ := hAsks
    have hMem : c.field ∈ m.requested := by
      refine List.mem_map_of_mem (List.mem_filter.mpr ⟨hc, ?_⟩)
      simpa using hKind
    simp [TableMap.hmget, hType, hMapped, List.ne_nil_of_mem hMem]
  have hTrue : m.hashRows true now named ks key = _ := TableMap.hashRows_eq true hType hRead
  refine ⟨TableMap.serverRows_hmget hHmget, ?_, fun hMember => ?_⟩
  · rw [hTrue, TableMap.hashRows_eq false hType hRead, TableMap.fillHash_eq hKinds hRead]
  · rw [hTrue]
    split
    · rename_i hSome
      obtain ⟨v, hv⟩ := Option.isSome_iff_exists.mp hSome
      have hne : h ≠ ∅ := by
        rw [hv] at hRead
        cases v with
        | hash fields =>
          cases hRead
          exact fields.2
        | _ => cases hRead
      rw [if_neg (not_or.mpr ⟨hMember, hne⟩)]
      exact ⟨_, rfl⟩
    · rename_i hNone
      rw [Option.not_isSome_iff_eq_none] at hNone
      rw [hNone] at hRead
      cases hRead
      rw [if_pos (.inr rfl)]

/-- A table over the hash `f = 1`, whose columns name `f` twice and `g` once. -/
theorem hmget_rows_eq_hgetall_repeated :
    letI := listingByName .resp3
    letI := verbatim
    let m : TableMap :=
      { relid := 1, tabletype := .hash, keyprefix := none, keyset := none, singletonKey := none
        searchIndex := none, legacyValue := false, readonly := true
        cols := [⟨true, .field, some [102], .other, false⟩, ⟨true, .key, none, .other, false⟩,
          ⟨true, .field, some [103], .other, false⟩, ⟨true, .field, some [102], .other, false⟩] }
    let ks : Keyspace := fun _ => hashes.write ((∅ : Fields).insert [102] ⟨[1], none⟩)
    m.hashRows true 0 false ks [107] = m.hashRows false 0 false ks [107] := by
  let _ := listingByName .resp3
  let _ := verbatim
  intro m ks
  have hRows := hmget_rows_eq_hgetall m rfl rfl (by simp [m]) (by simp [m]) 0 false ks [107]
    (hashes.holdsType_write _)
  exact hRows.2.1

/-! ## Sorted sets under RESP2 and RESP3 -/

/-- The same server, spoken to in the given protocol. -/
@[reducible] def Listing.speaking (L : Listing) (p : Protocol) : Listing := { L with protocol := p }

/-- The member loop over the scores of a sorted set: it ends by itself after one row
for each member, in the order of the server, and each row shows its member with the
score of that member. -/
theorem TableMap.emitMembers_scored [Listing] [Inputs] {m : TableMap} (hValid : m.Valid)
    (hMapped : m.legacyValue = false) (hType : m.tabletype = .zset) {e : Option Value} {z : Scores}
    (hRead : zsets.read e = some z) (now : Nat) (key : Bytes) (ttls : List Int) {fuel : Nat}
    (hFuel : (Listing.ranked z).length ≤ fuel) :
    m.emitMembers key ttls (zrangeWithScores e) fuel 0 =
      (Listing.ranked z).mapM fun x => m.sourceRow now key (.scored x ((z.lookup x).getD [])) := by
  by_cases hne : z = ∅
  · have hNone : Listing.ranked z = [] := by
      refine List.eq_nil_iff_forall_not_mem.mpr fun x hx => ?_
      rw [Listing.mem_ranked, hne] at hx
      exact Finmap.notMem_empty hx
    have hElems : (zrangeWithScores e).elems = [] := by
      rw [zrangeWithScores, onRead_of_read hRead, hNone]
      cases Listing.protocol <;> rfl
    rw [hNone]
    cases fuel with
    | zero => rfl
    | succ fuel =>
      rw [emitMembers, hElems]
      rfl
  · obtain ⟨stride, elems, hPos, hReply, hStride, hLength, hMember⟩ :=
      zrangeWithScores_layout hne hRead
    have hFill : ∀ (j : Nat) (s : Source),
        ((Listing.ranked z).map fun x => Source.scored x ((z.lookup x).getD []))[j]? = some s →
        m.fill key ttls (.array elems) (stride * j) = m.sourceRow now key s := by
      intro j s hs
      rw [List.getElem?_map, Option.map_eq_some_iff] at hs
      obtain ⟨x, hx, rfl⟩ := hs
      refine fill_eq _ now fun i c hc => ?_
      exact fillColumn_scored hValid hMapped hType (hMember j x hx) (List.mem_of_getElem? hc) i
    have hCount : (Resp.array elems).elems.length =
        stride * ((Listing.ranked z).map fun x => Source.scored x ((z.lookup x).getD [])).length := by
      rw [List.length_map]
      exact hLength
    have hEnough : ((Listing.ranked z).map fun x =>
        Source.scored x ((z.lookup x).getD [])).length ≤ fuel + 0 := by
      rwa [List.length_map]
    have hEmit := emitMembers_eq (by rw [hType, hStride]) hPos hCount hFill hEnough
    rw [Nat.mul_zero, List.drop_zero, List.mapM_map] at hEmit
    rw [hReply]
    exact hEmit

theorem Listing.length_ranked [Listing] (z : Scores) : (Listing.ranked z).length = z.keys.card := by
  have hKeys : (Listing.ranked z).toFinset = z.keys := by
    ext x
    rw [List.mem_toFinset, Listing.mem_ranked, Finmap.mem_keys]
  rw [← hKeys, List.toFinset_card_of_nodup (Listing.ranked_nodup z)]

/-- Whichever protocol the connection speaks, the rows of a sorted set are those of its
members in the order of the server, each with its own score; the member loop needs no
more rounds than there are members. -/
theorem zset_rows_any_protocol [Inputs] (L : Listing) (t : TableDef) (m : TableMap)
    (hMap : mapBuild t = .ok m) (hMapped : m.legacyValue = false) (hType : m.tabletype = .zset)
    (now : Nat) (ks : Keyspace) (key : Bytes) (hHolds : HoldsType .zset (ks key)) :
    ∃ z, zsets.read (ks key) = some z ∧ (L.ranked z).length = z.keys.card ∧
      ∀ p : Protocol,
        (∀ ttls fuel, z.keys.card ≤ fuel →
          m.emitMembers key ttls (@zrangeWithScores (L.speaking p) (ks key)) fuel 0 =
            (L.ranked z).mapM fun x => m.sourceRow now key (.scored x ((z.lookup x).getD []))) ∧
        @TableMap.serverRows (L.speaking p) _ m now false ks key =
          (L.ranked z).mapM fun x => m.sourceRow now key (.scored x ((z.lookup x).getD [])) := by
  have hValid := mapBuild_valid hMap
  obtain ⟨z, hRead⟩ := (zsets.read_iff (ks key)).mpr hHolds
  refine ⟨z, hRead, L.length_ranked z, fun p => ?_⟩
  let _ := L.speaking p
  refine ⟨fun ttls fuel hFuel => ?_, ?_⟩
  · rw [← L.length_ranked z] at hFuel
    exact TableMap.emitMembers_scored hValid hMapped hType hRead now key ttls hFuel
  · rw [TableMap.serverRows_eq hValid (by simp [hType])]
    cases hValue : ks key with
    | none =>
      rw [hValue] at hRead
      cases hRead
      have hNone : L.ranked ∅ = [] := by
        refine List.eq_nil_iff_forall_not_mem.mpr fun x hx => ?_
        exact Finmap.notMem_empty (L.mem_ranked.mp hx)
      rw [hNone]
      rfl
    | some v =>
      rw [hValue] at hRead
      cases v with
      | zset s =>
        cases hRead
        rw [TableMap.sources, if_neg (by simp [Value.type, hType, TableType.valueType]), hMapped,
          if_neg (by simp), Value.sources, List.mapM_map]
        rfl
      | _ => cases hRead

/-- The table of keys, members and scores. -/
def ranking : TableDef where
  relid := 1
  tabletype := .zset
  columns := [{ key := true }, { member := true }, { score := true }]

/-- A sorted set of two members, read in either protocol. -/
theorem zset_rows_any_protocol_ranking :
    letI := verbatim
    let L := listingByName .resp2
    let ks : Keyspace := fun _ => zsets.write (((∅ : Scores).insert [97] [49]).insert [98] [50])
    ∃ m, mapBuild ranking = .ok m ∧ ∃ z, zsets.read (ks [122]) = some z ∧
      (L.ranked z).length = z.keys.card ∧
      @TableMap.serverRows (L.speaking .resp2) _ m 0 false ks [122] =
        @TableMap.serverRows (L.speaking .resp3) _ m 0 false ks [122] := by
  let _ := verbatim
  intro L ks
  obtain ⟨m, hMap⟩ : ∃ m, mapBuild ranking = .ok m := ⟨_, rfl⟩
  have hMapped : m.legacyValue = false ∧ m.tabletype = .zset := by
    cases hMap
    exact ⟨rfl, rfl⟩
  obtain ⟨z, hRead, hLength, hRows⟩ := zset_rows_any_protocol L ranking m hMap hMapped.1 hMapped.2 0
    ks [122] (zsets.holdsType_write _)
  exact ⟨m, hMap, z, hRead, hLength, (hRows .resp2).2.trans (hRows .resp3).2.symm⟩

end ValkeyFdw
