import ValkeyFdw.Scan.Table

/-!
# What the rows of a key are about

A scan decodes the rows of a key from the replies of several commands, whose
containers differ between RESP2 and RESP3. Seen from the value under the key, a
row is about a string, a hash, one element or member, or a whole collection
(`Source`), and each of its columns depends on that alone. `serverRows_eq` reads
the rows of a key off its sources.
-/

namespace ValkeyFdw

open Server Trace

/-- What one row of a key is about. -/
inductive Source where
  | string (data : Bytes)
  | hash (fields : Fields)
  | element (data : Bytes) (index : Nat)
  | member (data : Bytes)
  | scored (data score : Bytes)
  | packed (elems : List Bytes)

/-- What a column shows of the source of its row. -/
def Source.column [Inputs] (now : Nat) (key : Bytes) (s : Source) (c : Column) :
    Except ReadError (Option Datum) :=
  match c.kind, s with
  | .key, _ => storeText c (some key)
  | .value, .string data => storeText c (some data)
  | .field, .hash fields => storeText c ((fields.lookup c.field).map HField.data)
  | .ttl, .hash fields => ttlDatum (remaining now (fields.lookup c.field))
  | .member, .element data _ | .member, .member data | .member, .scored data _ =>
    storeText c (some data)
  | .score, .scored _ score => storeText c (some score)
  | .position, .element _ index => .ok (some (.scalar (decimal index)))
  | .legacyValue, .packed elems => storePacked c (.array (elems.map .string))
  | _, _ => .ok none

def TableMap.sourceRow [Inputs] (m : TableMap) (now : Nat) (key : Bytes) (s : Source) :
    Except ReadError Row :=
  m.cols.mapM (s.column now key)

/-- A collection as one list: a hash alternates field and value, a sorted set
leaves its scores out. -/
def Value.elems [Listing] : Value → List Bytes
  | .list l => l.1
  | .set s => Listing.members s.1
  | .zset z => Listing.ranked z.1
  | .hash h => (Listing.members h.1.keys).flatMap fun f =>
      [f, ((h.1.lookup f).map HField.data).getD []]
  | .string _ | .stream _ => []

/-- The rows of a mapped value: one for each element or member of a collection,
one for a string or a hash. -/
def Value.sources [Listing] : Value → List Source
  | .string data => [.string data]
  | .hash h => [.hash h.1]
  | .list l => l.1.mapIdx fun i x => .element x i
  | .set s => (Listing.members s.1).map .member
  | .zset z => (Listing.ranked z.1).map fun x => .scored x ((z.1.lookup x).getD [])
  | .stream _ => []

/-- The rows a table has under a key; one of another type than the table's has none. -/
def TableMap.sources [Listing] (m : TableMap) : Option Value → List Source
  | none => []
  | some v =>
    if v.type ≠ m.tabletype.valueType then []
    else if m.legacyValue then [.packed v.elems]
    else v.sources

/-! ## The columns of each table type -/

theorem TableMap.Valid.kinds {m : TableMap} (hValid : m.Valid) (hMapped : m.legacyValue = false)
    {c : Column} (hc : c ∈ m.cols) : (c.kind = .key ∨ c.kind = .dropped) ∨
      match m.tabletype with
      | .string => c.kind = .value
      | .hash => c.kind = .field ∨ c.kind = .ttl
      | .list => c.kind = .member ∨ c.kind = .position
      | .set => c.kind = .member
      | .zset => c.kind = .member ∨ c.kind = .score
      | .vector => c.kind = .field ∨ c.kind = .distance := by
  have hConflict := hValid.types c hc
  have hSourced := ((hValid.mapped hMapped).1.sourced c hc).mapped
  unfold columnConflict at hConflict
  cases hType : m.tabletype <;> cases hKind : c.kind <;> simp_all

section Replies

variable [Inputs] {m : TableMap} {key : Bytes} {ttls : List Int} {reply : Resp} {now elem : Nat}

theorem TableMap.fill_eq (s : Source) (now : Nat) (h : ∀ (i : Nat) (c : Column), m.cols[i]? = some c →
    m.fillColumn key ttls reply elem i c = s.column now key c) :
    m.fill key ttls reply elem = m.sourceRow now key s := by
  rw [fill, sourceRow]
  refine (mapM_congr (g := s.column now key ∘ Prod.fst) fun x hx => ?_).trans ?_
  · exact h x.2 x.1 (List.mem_zipIdx_iff_getElem?.mp hx)
  · rw [← List.mapM_map, List.zipIdx_map_fst]

/-- Each row of a collection shows the source in its place. -/
theorem TableMap.emitMembers_eq {sources : List Source} {stride : Nat}
    (hStride : memberStride m.tabletype reply = stride) (hPos : 0 < stride)
    (hLength : reply.elems.length = stride * sources.length)
    (hFill : ∀ (j : Nat) (s : Source), sources[j]? = some s →
      m.fill key ttls reply (stride * j) = m.sourceRow now key s)
    {fuel j : Nat} (hFuel : sources.length ≤ fuel + j) :
    m.emitMembers key ttls reply fuel (stride * j) =
      (sources.drop j).mapM (m.sourceRow now key) := by
  induction fuel generalizing j with
  | zero => rw [emitMembers, List.drop_of_length_le (by omega)]; rfl
  | succ fuel ih =>
    rw [emitMembers, hLength]
    by_cases hj : j < sources.length
    · have hInside : ¬ stride * sources.length ≤ stride * j := by
        rw [not_le]
        exact Nat.mul_lt_mul_of_pos_left hj hPos
      rw [if_neg hInside, List.drop_eq_getElem_cons hj, List.mapM_cons,
        hFill j _ (List.getElem?_eq_getElem hj), hStride, ← Nat.mul_succ, ih (by omega)]
    · have hPast : stride * sources.length ≤ stride * j := Nat.mul_le_mul_left _ (by omega)
      rw [if_pos hPast, List.drop_of_length_le (by omega)]
      rfl

end Replies

/-! ## Replies of each command -/

theorem getElem?_filter_of_getElem? {α : Type} {p : α → Bool} {l : List α} {i : Nat} {a : α}
    (h : l[i]? = some a) (hp : p a = true) :
    (l.filter p)[((l.take i).filter p).length]? = some a := by
  induction l generalizing i with
  | nil => simp at h
  | cons b l ih =>
    cases i with
    | zero =>
      obtain rfl : b = a := by simpa using h
      simp [hp]
    | succ i =>
      have hRest := ih (by simpa using h)
      by_cases hb : p b = true
      · simpa [hb] using hRest
      · simpa [hb] using hRest

theorem storePacked_congr [Inputs] {c : Column} {reply reply' : Resp}
    (h : reply.elems = reply'.elems) : storePacked c reply = storePacked c reply' := by
  rw [storePacked, storePacked, h]

theorem container_elems [Listing] (elems : List Resp) :
    (container .map elems).elems = elems ∧ (container .set elems).elems = elems := by
  unfold container
  cases Listing.protocol <;> exact ⟨rfl, rfl⟩

/-- A reply that holds several answers. -/
def Resp.IsContainer (reply : Resp) (elems : List Resp) : Prop :=
  reply = .array elems ∨ reply = .map elems ∨ reply = .set elems

theorem isContainer_map [Listing] (elems : List Resp) :
    (container .map elems).IsContainer elems := by
  unfold container
  cases Listing.protocol
  · exact .inl rfl
  · exact .inr (.inl rfl)

theorem isContainer_set [Listing] (elems : List Resp) :
    (container .set elems).IsContainer elems := by
  unfold container
  cases Listing.protocol
  · exact .inl rfl
  · exact .inr (.inr rfl)

theorem Resp.IsContainer.elems_eq {reply : Resp} {elems : List Resp}
    (h : reply.IsContainer elems) : reply.elems = elems := by
  rcases h with rfl | rfl | rfl <;> rfl

section Rows

variable [Listing] [Inputs] {m : TableMap} {now : Nat} {ks : Keyspace} {key : Bytes}

theorem TableMap.serverRows_of_reply (hString : m.tabletype ≠ .string) {elems : List Resp}
    (hReply : (m.valueCommand (ks key)).IsContainer elems)
    (hAbsent : if m.hmget then takeLength (hlen (ks key)) ≠ some 0 else elems ≠ []) :
    m.serverRows now false ks key =
      let f := m.takeReplies now false ks key
      if m.isMultirow then m.emitMembers key f.ttls f.value f.value.elems.length 0
      else (m.fill key f.ttls f.value 0).map fun row => [row] := by
  have hMember : (m.takeReplies now false ks key).member = none := by
    cases hs : m.keyset <;> simp [takeReplies, hs]
  have hHlen : (m.takeReplies now false ks key).hlen =
      if m.hmget then takeLength (hlen (ks key)) else none := rfl
  have hValue : (m.takeReplies now false ks key).value.IsContainer elems := hReply
  have hSome : m.producesNothing (m.takeReplies now false ks key) = false := by
    simp only [producesNothing, hMember, isAbsent, if_neg hString, hHlen]
    split at hAbsent <;> rcases hValue with hValue | hValue | hValue <;>
      simp_all [Resp.isSkippable]
  have hExpect : m.expectValue (m.takeReplies now false ks key).value = .ok () := by
    unfold expectValue
    cases hType : m.tabletype with
    | string => exact absurd hType hString
    | _ => rcases hValue with hValue | hValue | hValue <;> rw [hValue]
  rw [serverRows, emit, if_neg (by simp [hSome]), hExpect]
  dsimp only
  split
  · rfl
  · cases m.fill key (m.takeReplies now false ks key).ttls
      (m.takeReplies now false ks key).value 0 <;> rfl

omit [Inputs] in
theorem members_ne_nil {s : Finset Bytes} (hne : s ≠ ∅) : Listing.members s ≠ [] := by
  obtain ⟨x, hx⟩ := Finset.nonempty_iff_ne_empty.mpr hne
  exact List.ne_nil_of_mem (Listing.mem_members.mpr hx)

omit [Inputs] in
theorem ranked_ne_nil {z : Scores} (hne : z ≠ ∅) : Listing.ranked z ≠ [] := by
  intro hNil
  refine hne (Finmap.ext_lookup fun x => ?_)
  have hNot : x ∉ z := fun hx => by simpa [hNil] using Listing.mem_ranked.mpr hx
  rw [Finmap.lookup_eq_none.mpr hNot, Finmap.lookup_empty]

/-! ## Strings -/

theorem TableMap.serverRows_string (hType : m.tabletype = .string) {v : Bytes}
    (h : ks key = some (.string v)) :
    m.serverRows now false ks key =
      (m.fill key (m.takeReplies now false ks key).ttls (.string v) 0).map fun row => [row] := by
  have hValue : (m.takeReplies now false ks key).value = .string v := by
    simp [takeReplies, valueCommand, hType, h, Server.get]
  have hMember : (m.takeReplies now false ks key).member = none := by
    cases hs : m.keyset <;> simp [takeReplies, hs]
  have hSome : m.producesNothing (m.takeReplies now false ks key) = false := by
    simp [producesNothing, hMember, hValue, Resp.isSkippable, isAbsent, hType]
  have hOne : m.isMultirow = false := by simp [isMultirow, hType]
  rw [serverRows, emit, if_neg (by simp [hSome]), hValue]
  simp only [expectValue, hType, hOne, Bool.false_eq_true, if_false]
  cases m.fill key (m.takeReplies now false ks key).ttls (.string v) 0 <;> rfl

/-! ## Hashes -/

omit [Inputs] in
/-- The reply to `HPTTL` answers each ttl column for its own field. -/
theorem TableMap.ttl_reply {h : {h : Fields // h ≠ ∅}} (hValue : ks key = some (.hash h)) {i : Nat}
    {c : Column} (hc : m.cols[i]? = some c) (hKind : c.kind = .ttl) :
    (m.takeReplies now false ks key).ttls[m.ttlSlot i]? =
      some (remaining now (h.1.lookup c.field)) := by
  have hRead : hashes.read (some (.hash h)) = some h.1 := rfl
  have hSlot : m.ttlFields[m.ttlSlot i]? = some c.field := by
    rw [ttlFields, List.getElem?_map, ttlSlot, getElem?_filter_of_getElem? hc (by simp [hKind])]
    rfl
  have hLength := (List.getElem?_eq_some_iff.mp hSlot).1
  simp only [takeReplies, hValue, hpttl, onRead_of_read hRead, takeTtls, List.getElem?_map,
    List.getElem?_range hLength, hSlot, Option.map_some]

theorem TableMap.serverRows_hash (hValid : m.Valid) (hMapped : m.legacyValue = false)
    (hType : m.tabletype = .hash) {h : {h : Fields // h ≠ ∅}} (hValue : ks key = some (.hash h)) :
    m.serverRows now false ks key = [Source.hash h.1].mapM (m.sourceRow now key) := by
  have hRead : hashes.read (some (.hash h)) = some h.1 := rfl
  have hOne : m.isMultirow = false := by simp [isMultirow, hType]
  have hKinds := fun (i : Nat) (c : Column) (hc : m.cols[i]? = some c) =>
    hValid.kinds hMapped (List.mem_of_getElem? hc)
  simp only [hType] at hKinds
  -- The columns are the same whichever command the hash is read by.
  suffices hRows : (∃ elems, (m.valueCommand (ks key)).IsContainer elems ∧
      if m.hmget then takeLength (hlen (ks key)) ≠ some 0 else elems ≠ []) ∧
      ∀ (i : Nat) (c : Column), m.cols[i]? = some c → c.kind = .field →
        m.fieldData i c (m.valueCommand (ks key)) = (h.1.lookup c.field).map HField.data by
    obtain ⟨⟨elems, hReply, hAbsent⟩, hField⟩ := hRows
    rw [serverRows_of_reply (by simp [hType]) hReply hAbsent]
    dsimp only
    rw [hOne, if_neg (by simp), fill_eq (.hash h.1) now]
    · rw [List.mapM_cons, List.mapM_nil]
      cases m.sourceRow now key (.hash h.1) <;> rfl
    · intro i c hc
      rcases hKinds i c hc with (hKind | hKind) | hKind | hKind
      · simp only [fillColumn, Source.column, hKind]
      · simp only [fillColumn, Source.column, hKind]
      · simp only [fillColumn, Source.column, hKind]
        exact congrArg _ (hField i c hc hKind)
      · simp only [fillColumn, Source.column, hKind, ttl_reply hValue hc hKind, Option.getD_some]
  by_cases hHmget : m.hmget = true
  · have hReply : m.valueCommand (ks key) = .array (m.requested.map fun f =>
        (h.1.lookup f).elim .nil fun x => .string x.data) := by
      simp [valueCommand, hType, hHmget, hValue, Server.hmget, onRead_of_read hRead]
    refine ⟨⟨_, .inl hReply, ?_⟩, fun i c hc hKind => ?_⟩
    · have hCard : h.1.keys.card ≠ 0 := fun hZero => keys_ne_empty h.2 (Finset.card_eq_zero.mp hZero)
      simp [hHmget, hValue, hlen, onRead_of_read hRead, takeLength, hCard]
    · have hSlot : m.requested[m.fieldSlot i]? = some c.field := by
        rw [requested, List.getElem?_map, fieldSlot,
          getElem?_filter_of_getElem? hc (by simp [hKind])]
        rfl
      rw [hReply, fieldData]
      simp only [hHmget, if_true, List.getElem?_map, hSlot, Option.map_some, Option.bind_some]
      cases h.1.lookup c.field <;> rfl
  · have hReply : m.valueCommand (ks key) = container .map
        ((Listing.members h.1.keys).flatMap fun f =>
          [.string f, ((h.1.lookup f).elim .nil fun x => .string x.data)]) := by
      simp [valueCommand, hType, hHmget, hValue, hgetall, onRead_of_read hRead]
    refine ⟨⟨_, hReply ▸ isContainer_map _, ?_⟩, fun i c hc hKind => ?_⟩
    · rw [if_neg hHmget]
      obtain ⟨f, rest, hMembers⟩ := List.exists_cons_of_ne_nil (members_ne_nil (keys_ne_empty h.2))
      simp [hMembers]
    · -- A field column would have been asked for.
      refine absurd ?_ hHmget
      have hMem : c.field ∈ m.requested := by
        rw [requested, List.mem_map]
        exact ⟨c, List.mem_filter.mpr ⟨List.mem_of_getElem? hc, by simp [hKind]⟩, rfl⟩
      simp [hmget, hType, hMapped, List.ne_nil_of_mem hMem]

/-! ## Members -/

/-- The rows of a collection, one for each answer that names its own member. -/
theorem TableMap.serverRows_members (hMulti : m.isMultirow = true) {elems : List Resp}
    {sources : List Source} {stride : Nat} (hPos : 0 < stride)
    (hReply : (m.valueCommand (ks key)).IsContainer elems)
    (hStride : memberStride m.tabletype (m.valueCommand (ks key)) = stride)
    (hLength : elems.length = stride * sources.length) (hne : sources ≠ [])
    (hColumns : ∀ (j : Nat) (s : Source), sources[j]? = some s → ∀ c ∈ m.cols, ∀ i,
      m.fillColumn key (m.takeReplies now false ks key).ttls (m.valueCommand (ks key)) (stride * j)
        i c = s.column now key c) :
    m.serverRows now false ks key = sources.mapM (m.sourceRow now key) := by
  have hType : m.tabletype = .list ∨ m.tabletype = .set ∨ m.tabletype = .zset := by
    simp only [isMultirow, Bool.and_eq_true, Bool.or_eq_true, decide_eq_true_eq, or_assoc] at hMulti
    exact hMulti.2
  have hString : m.tabletype ≠ .string := by rcases hType with h | h | h <;> simp [h]
  have hHmget : m.hmget = false := by rcases hType with h | h | h <;> simp [hmget, h]
  have hCount : (m.valueCommand (ks key)).elems.length = stride * sources.length := by
    rw [hReply.elems_eq, hLength]
  have hSources : 0 < sources.length := List.length_pos_of_ne_nil hne
  have hElems : 0 < elems.length := hLength ▸ Nat.mul_pos hPos hSources
  rw [serverRows_of_reply hString hReply (by simpa [hHmget] using List.ne_nil_of_length_pos hElems)]
  dsimp only
  rw [hMulti, if_pos rfl]
  have hFuel : sources.length ≤ (m.valueCommand (ks key)).elems.length + 0 := by
    rw [hCount, Nat.add_zero]
    exact Nat.le_mul_of_pos_left _ hPos
  have hEmit := emitMembers_eq hStride
    hPos hCount (fun j s hs => fill_eq s now fun i c hc => hColumns j s hs c (List.mem_of_getElem? hc) i)
    hFuel
  rw [Nat.mul_zero, List.drop_zero] at hEmit
  exact hEmit

theorem TableMap.serverRows_list (hValid : m.Valid) (hMapped : m.legacyValue = false)
    (hType : m.tabletype = .list) {l : {l : List Bytes // l ≠ []}}
    (hValue : ks key = some (.list l)) :
    m.serverRows now false ks key =
      (l.1.mapIdx fun i x => Source.element x i).mapM (m.sourceRow now key) := by
  have hRead : lists.read (some (.list l)) = some l.1 := rfl
  have hReply : m.valueCommand (ks key) = .array (l.1.map .string) := by
    simp [valueCommand, hType, hValue, lrange, onRead_of_read hRead]
  refine serverRows_members (by simp [isMultirow, hMapped, hType]) Nat.one_pos (.inl hReply)
    (by simp [memberStride, hType]) (by simp) (by simpa using l.2) fun j s hs c hc i => ?_
  rw [List.getElem?_mapIdx, Option.map_eq_some_iff] at hs
  obtain ⟨x, hx, rfl⟩ := hs
  have hMember : memberAt (.array (l.1.map .string)) j false = some (.string x, none) := by
    simp [memberAt, Resp.elems, hx]
  have hKinds := hValid.kinds hMapped hc
  simp only [hType] at hKinds
  rw [hReply, Nat.one_mul]
  rcases hKinds with (hKind | hKind) | hKind | hKind <;>
    simp [fillColumn, Source.column, hKind, hType, hMember, Resp.str]

theorem TableMap.serverRows_set (hValid : m.Valid) (hMapped : m.legacyValue = false)
    (hType : m.tabletype = .set) {s : {s : Finset Bytes // s ≠ ∅}}
    (hValue : ks key = some (.set s)) :
    m.serverRows now false ks key =
      ((Listing.members s.1).map Source.member).mapM (m.sourceRow now key) := by
  have hRead : sets.read (some (.set s)) = some s.1 := rfl
  have hReply : (m.valueCommand (ks key)).IsContainer ((Listing.members s.1).map .string) := by
    rw [show m.valueCommand (ks key) = container .set ((Listing.members s.1).map .string) by
      simp [valueCommand, hType, hValue, smembers, onRead_of_read hRead]]
    exact isContainer_set _
  refine serverRows_members (by simp [isMultirow, hMapped, hType]) Nat.one_pos hReply
    (by simp [memberStride, hType]) (by simp) (by simpa using members_ne_nil s.2)
    fun j src hs c hc i => ?_
  rw [List.getElem?_map, Option.map_eq_some_iff] at hs
  obtain ⟨x, hx, rfl⟩ := hs
  have hMember : memberAt (m.valueCommand (ks key)) j false = some (.string x, none) := by
    simp [memberAt, hReply.elems_eq, hx]
  have hKinds := hValid.kinds hMapped hc
  simp only [hType] at hKinds
  rw [Nat.one_mul]
  rcases hKinds with (hKind | hKind) | hKind <;>
    simp [fillColumn, Source.column, hKind, hType, hMember, Resp.str]

omit [Listing] [Inputs] in
/-- Every second answer of a list of pairs is the first of its pair. -/
theorem getElem?_flatMap_pair {α β : Type} (f g : α → β) (l : List α) (j : Nat) :
    (l.flatMap fun x => [f x, g x])[2 * j]? = l[j]?.map f ∧
      (l.flatMap fun x => [f x, g x])[2 * j + 1]? = l[j]?.map g := by
  induction l generalizing j with
  | nil => simp
  | cons x l ih =>
    cases j with
    | zero => simp
    | succ j =>
      rw [show 2 * (j + 1) = 2 * j + 1 + 1 by omega]
      simpa using ih j

omit [Inputs] in
/-- The protocols lay the pairs out differently; each names the member and its score. -/
theorem zrangeWithScores_layout {z : Scores} (hne : z ≠ ∅) {e : Option Value}
    (hRead : zsets.read e = some z) :
    ∃ stride elems, 0 < stride ∧ zrangeWithScores e = .array elems ∧
      memberStride .zset (.array elems) = stride ∧
      elems.length = stride * (Listing.ranked z).length ∧
      ∀ (j : Nat) (x : Bytes), (Listing.ranked z)[j]? = some x →
        memberAt (.array elems) (stride * j) true =
          some (.string x, some (.string ((z.lookup x).getD []))) := by
  obtain ⟨x₀, rest, hRanked⟩ := List.exists_cons_of_ne_nil (ranked_ne_nil hne)
  have hScore : ∀ x ∈ Listing.ranked z, (z.lookup x).elim Resp.nil .string =
      .string ((z.lookup x).getD []) := by
    intro x hx
    obtain ⟨score, hScore⟩ := Finmap.mem_iff.mp (Listing.mem_ranked.mp hx)
    rw [hScore]
    rfl
  rw [zrangeWithScores, onRead_of_read hRead]
  cases Listing.protocol with
  | resp2 =>
    refine ⟨2, _, Nat.two_pos, rfl, ?_, ?_, fun j x hx => ?_⟩
    · simp [memberStride, hRanked, Resp.elems]
    · simp [Nat.mul_comm]
    · obtain ⟨hFirst, hSecond⟩ := getElem?_flatMap_pair (fun x => Resp.string x)
        (fun x => (z.lookup x).elim .nil .string) (Listing.ranked z) j
      have hHead : ((Listing.ranked z).flatMap fun x =>
          [Resp.string x, (z.lookup x).elim .nil .string]).head? = some (.string x₀) := by
        simp [hRanked]
      simp only [memberAt, Resp.elems, hFirst, hSecond, hHead, hx, Option.map_some, if_true,
        hScore x (List.mem_of_getElem? hx)]
  | resp3 =>
    refine ⟨1, _, Nat.one_pos, rfl, ?_, ?_, fun j x hx => ?_⟩
    · simp [memberStride, hRanked, Resp.elems]
    · simp
    · have hHead : ((Listing.ranked z).map fun x =>
          Resp.array [.string x, (z.lookup x).elim .nil .string]).head? =
            some (.array [.string x₀, (z.lookup x₀).elim .nil .string]) := by
        rw [hRanked]
        rfl
      simp only [memberAt, Resp.elems, Nat.one_mul, List.getElem?_map, hx, hHead, Option.map_some,
        if_true, hScore x (List.mem_of_getElem? hx)]

omit [Listing] in
theorem TableMap.fillColumn_scored (hValid : m.Valid) (hMapped : m.legacyValue = false)
    (hType : m.tabletype = .zset) {ttls : List Int} {reply : Resp} {elem : Nat} {x score : Bytes}
    (hMember : memberAt reply elem true = some (.string x, some (.string score))) {c : Column}
    (hc : c ∈ m.cols) (i : Nat) :
    m.fillColumn key ttls reply elem i c = (Source.scored x score).column now key c := by
  have hKinds := hValid.kinds hMapped hc
  simp only [hType] at hKinds
  rcases hKinds with (hKind | hKind) | hKind | hKind <;>
    simp [fillColumn, Source.column, hKind, hType, hMember, Resp.str]

theorem TableMap.serverRows_zset (hValid : m.Valid) (hMapped : m.legacyValue = false)
    (hType : m.tabletype = .zset) {z : {z : Scores // z ≠ ∅}}
    (hValue : ks key = some (.zset z)) :
    m.serverRows now false ks key =
      ((Listing.ranked z.1).map fun x => Source.scored x ((z.1.lookup x).getD [])).mapM
        (m.sourceRow now key) := by
  have hMulti : m.isMultirow = true := by simp [isMultirow, hMapped, hType]
  obtain ⟨stride, elems, hPos, hReply, hStride, hLength, hMember⟩ :=
    zrangeWithScores_layout z.2 (show zsets.read (some (.zset z)) = some z.1 from rfl)
  have hCommand : m.valueCommand (ks key) = .array elems := by
    simp [valueCommand, hType, hMapped, hValue, hReply]
  refine serverRows_members hMulti hPos (.inl hCommand) (by rw [hCommand, hType, hStride])
    (by simpa using hLength) (by simpa using ranked_ne_nil z.2) fun j s hs c hc i => ?_
  rw [List.getElem?_map, Option.map_eq_some_iff] at hs
  obtain ⟨x, hx, rfl⟩ := hs
  rw [hCommand]
  exact fillColumn_scored hValid hMapped hType (hMember j x hx) hc i

/-! ## Packed tables -/

/-- A packed table shows the whole collection, whichever command lists it. -/
theorem TableMap.serverRows_packed (hValid : m.Valid) (hPacked : m.legacyValue = true)
    (hVector : m.tabletype ≠ .vector) {v : Value} (hValue : ks key = some v)
    (hType : v.type = m.tabletype.valueType) :
    m.serverRows now false ks key = [Source.packed v.elems].mapM (m.sourceRow now key) := by
  obtain ⟨hString, k, c, hCols, ⟨-, hKey⟩, -, hArray⟩ := hValid.packed hPacked
  have hHmget : m.hmget = false := by simp [hmget, hPacked]
  have hOne : m.isMultirow = false := by simp [isMultirow, hPacked]
  suffices hReply : (m.valueCommand (ks key)).IsContainer (v.elems.map .string) ∧ v.elems ≠ [] by
    rw [serverRows_of_reply hString hReply.1 (by simpa [hHmget] using hReply.2)]
    dsimp only
    rw [hOne, if_neg (by simp), fill_eq (.packed v.elems) now]
    · rw [List.mapM_cons, List.mapM_nil]
      cases m.sourceRow now key (.packed v.elems) <;> rfl
    · intro i c' hc'
      have hMem := List.mem_of_getElem? hc'
      simp only [hCols, List.mem_cons, List.not_mem_nil, or_false] at hMem
      rcases hMem with rfl | rfl
      · simp only [fillColumn, Source.column, hKey]
      · simp only [fillColumn, Source.column, hArray]
        exact storePacked_congr hReply.1.elems_eq
  rw [hValue]
  cases hTable : m.tabletype with
  | string => exact absurd hTable hString
  | vector => exact absurd hTable hVector
  | list =>
    rw [hTable] at hType
    cases v with
    | list l =>
      have hRead : lists.read (some (.list l)) = some l.1 := rfl
      refine ⟨.inl ?_, l.2⟩
      simp [valueCommand, hTable, lrange, onRead_of_read hRead, Value.elems]
    | _ => cases hType
  | set =>
    rw [hTable] at hType
    cases v with
    | set s =>
      have hRead : sets.read (some (.set s)) = some s.1 := rfl
      refine ⟨?_, members_ne_nil s.2⟩
      simp only [valueCommand, hTable, smembers, onRead_of_read hRead]
      exact isContainer_set _
    | _ => cases hType
  | zset =>
    rw [hTable] at hType
    cases v with
    | zset z =>
      have hRead : zsets.read (some (.zset z)) = some z.1 := rfl
      refine ⟨.inl ?_, ranked_ne_nil z.2⟩
      simp [valueCommand, hTable, hPacked, zrange, onRead_of_read hRead, Value.elems]
    | _ => cases hType
  | hash =>
    rw [hTable] at hType
    cases v with
    | hash h =>
      have hRead : hashes.read (some (.hash h)) = some h.1 := rfl
      obtain ⟨f, rest, hMembers⟩ := List.exists_cons_of_ne_nil (members_ne_nil (keys_ne_empty h.2))
      refine ⟨?_, by simp [Value.elems, hMembers]⟩
      have hPairs : (Value.hash h).elems.map Resp.string =
          (Listing.members h.1.keys).flatMap fun f =>
            [.string f, ((h.1.lookup f).elim .nil fun x => .string x.data)] := by
        rw [Value.elems, List.map_flatMap]
        refine List.flatMap_congr fun f hf => ?_
        obtain ⟨x, hx⟩ := Finmap.mem_iff.mp (Finmap.mem_keys.mp (Listing.mem_members.mp hf))
        simp [hx]
      simp only [valueCommand, hTable, hHmget, Bool.false_eq_true, if_false, hgetall,
        onRead_of_read hRead, hPairs]
      exact isContainer_map _
    | _ => cases hType

/-! ## The rows of a key -/

/-- The rows of a key are those of its sources. -/
theorem TableMap.serverRows_eq (hValid : m.Valid) (hVector : m.tabletype ≠ .vector) :
    m.serverRows now false ks key = (m.sources (ks key)).mapM (m.sourceRow now key) := by
  cases hValue : ks key with
  | none =>
    rw [serverRows_eq_nil (by simp [hValue])]
    rfl
  | some v =>
    by_cases hType : v.type = m.tabletype.valueType
    · rw [sources, if_neg (by simpa using hType)]
      by_cases hPacked : m.legacyValue = true
      · rw [if_pos hPacked, serverRows_packed hValid hPacked hVector hValue hType]
      · rw [if_neg hPacked]
        have hMapped : m.legacyValue = false := by simpa using hPacked
        cases v with
        | string data =>
          have hTable : m.tabletype = .string := by
            cases hTable : m.tabletype <;> simp_all [Value.type, TableType.valueType]
          rw [serverRows_string hTable hValue, fill_eq (.string data) now]
          · rw [Value.sources, List.mapM_cons, List.mapM_nil]
            cases m.sourceRow now key (.string data) <;> rfl
          · intro i c hc
            have hKinds := hValid.kinds hMapped (List.mem_of_getElem? hc)
            simp only [hTable] at hKinds
            rcases hKinds with (hKind | hKind) | hKind <;>
              simp only [fillColumn, Source.column, hKind]
        | hash h =>
          have hTable : m.tabletype = .hash := by
            cases hTable : m.tabletype <;> simp_all [Value.type, TableType.valueType]
          exact serverRows_hash hValid hMapped hTable hValue
        | list l =>
          have hTable : m.tabletype = .list := by
            cases hTable : m.tabletype <;> simp_all [Value.type, TableType.valueType]
          exact serverRows_list hValid hMapped hTable hValue
        | set s =>
          have hTable : m.tabletype = .set := by
            cases hTable : m.tabletype <;> simp_all [Value.type, TableType.valueType]
          exact serverRows_set hValid hMapped hTable hValue
        | zset z =>
          have hTable : m.tabletype = .zset := by
            cases hTable : m.tabletype <;> simp_all [Value.type, TableType.valueType]
          exact serverRows_zset hValid hMapped hTable hValue
        | stream raw =>
          cases hTable : m.tabletype <;> simp_all [Value.type, TableType.valueType]
    · rw [sources, if_pos hType, serverRows_eq_nil (by simpa [hValue] using hType)]
      rfl

end Rows

end ValkeyFdw
