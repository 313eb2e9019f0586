import ValkeyFdw.Cluster.Discover
import ValkeyFdw.Search.Filter
import ValkeyFdw.Search.Vector

/-!
# Asking an index what it is

A search names a field and a number of rows, never a metric: the index applies its own.
So the wrapper asks `FT.INFO` first and refuses a query whose operator measures something
else, whose field is no vector, or whose vector has another size. The answer is a tree of
alternating names and values, arrays under one protocol and maps under the other.

* `searchVerify_iff`: of an answer that describes an index, exactly the queries pass that
  fit the first attribute over their field;
* `indexReply_describes`: an index has such an answer in both protocols.
-/

namespace ValkeyFdw

/-! ## Refusals -/

/-- The errors of a search. -/
inductive SearchError where
  /-- "a Valkey aggregate reply is missing an element it declared" -/
  | missingElement
  /-- What the server said instead of an answer. -/
  | refused (what : String) (text : Option Bytes)
  | unexpectedType (what : String) (type : ReplyType)
  | noField (index field : Bytes)
  /-- With the type that was read, if one was. -/
  | notVector (index field : Bytes) (type : Option Bytes)
  | otherMetric (index operator : Bytes) (metric : Option Bytes)
  | otherElements (index : Bytes) (dataType : Option Bytes)
  | otherSize (index : Bytes) (given : Nat) (dims : Int)
  | nullVector
  | vector (e : Vec.VecError)
  | filter (e : FilterError)
  | gaveUp (rows : Nat)
deriving DecidableEq

/-! ## Walking the answer -/

namespace ValkeyReply

def isAggregate (r : ValkeyReply) : Bool := r.type = .array || r.type = .map

def searchChild : Option ValkeyReply → Except SearchError ValkeyReply
  | some r => .ok r
  | none => .error .missingElement

/-- `vfdw_info_sub`: what a name maps to. -/
def subFrom (name : Bytes) : List (Option ValkeyReply) → Except SearchError (Option ValkeyReply)
  | k :: v :: rest => do
    let k ← searchChild k
    if k.str = some name then return some (← searchChild v) else subFrom name rest
  | _ => .ok none

def infoSub (r : Option ValkeyReply) (name : String) : Except SearchError (Option ValkeyReply) :=
  match r with
  | some r => if r.isAggregate then subFrom (ascii name) r.element else .ok none
  | none => .ok none

/-- `vfdw_scan_hash_lookup`: both halves of a pair have to be there. -/
def lookupFrom (name : Bytes) : List (Option ValkeyReply) → Except SearchError (Option ValkeyReply)
  | k :: v :: rest => do
    let k ← searchChild k
    let v ← searchChild v
    if k.str = some name then return some v else lookupFrom name rest
  | _ => .ok none

/-- The text of a leaf, as far as its first NUL. -/
def infoStr (r : Option ValkeyReply) (name : String) : Except SearchError (Option Bytes) :=
  match r with
  | some r =>
    if r.isAggregate then
      (lookupFrom (ascii name) r.element).map fun v =>
        (v.bind ValkeyReply.str).map (List.takeWhile (· ≠ 0))
    else .ok none
  | none => .ok none

/-- An integer leaf; a number that is spelled as a string is not read. -/
def infoInt (r : Option ValkeyReply) (name : String) : Except SearchError Int :=
  (infoSub r name).map fun v =>
    match v with
    | some v => if v.type = .integer then v.integer else -1
    | none => -1

/-- The first attribute over a field of the hash. -/
def attributeFrom (field : Bytes) :
    List (Option ValkeyReply) → Except SearchError (Option ValkeyReply)
  | [] => .ok none
  | a :: rest => do
    let a ← searchChild a
    let id ← infoStr (some a) "identifier"
    if id = some field then return some a else attributeFrom field rest

def infoAttribute (info : ValkeyReply) (field : Bytes) :
    Except SearchError (Option ValkeyReply) := do
  match ← infoSub (some info) "attributes" with
  | some attrs => if attrs.type = .array then attributeFrom field attrs.element else return none
  | none => return none

end ValkeyReply

open ValkeyReply

/-! ## The check -/

/-- What a check of the index looks at. -/
structure KnnTarget where
  index : Bytes
  field : Bytes
  metric : Bytes
deriving DecidableEq

section Verify

variable (knn : KnnTarget)

def searchVectorAttr (info : ValkeyReply) : Except SearchError (Option ValkeyReply) := do
  match ← infoAttribute info knn.field with
  | none => .error (.noField knn.index knn.field)
  | some attr =>
    let type ← infoStr (some attr) "type"
    if type = some (ascii "VECTOR") then infoSub (some attr) "index"
    else .error (.notVector knn.index knn.field type)

/-- The elements are `float4` and as many as the index has; the size in bytes is a `size_t`. -/
def searchCheckLayout (idx : Option ValkeyReply) (qbytes : Nat) : Except SearchError Unit := do
  let dtype ← infoStr idx "data_type"
  if dtype ≠ some (ascii "FLOAT32") then .error (.otherElements knn.index dtype)
  else
    let dims ← infoInt idx "dimensions"
    if 0 < dims ∧ (qbytes : Int) ≠ dims * 4 % 2 ^ 64 then
      .error (.otherSize knn.index (qbytes / 4) dims)
    else return ()

/-- The metric is the check this exists for. -/
def searchVerify (info : ValkeyReply) (qbytes : Nat) : Except SearchError Unit := do
  if info.type = .error then .error (.refused "FT.INFO" info.str)
  else
    let idx ← searchVectorAttr knn info
    let metric ← infoStr idx "distance_metric"
    if metric ≠ some knn.metric then .error (.otherMetric knn.index knn.metric metric)
    else searchCheckLayout knn idx qbytes

end Verify

/-! ## What an answer describes -/

/-- What an index says of an attribute that is a vector. -/
structure VectorInfo where
  metric : Bytes
  dataType : Bytes
  dims : Int
deriving DecidableEq

/-- An attribute: the field of the hash, the name that queries use, and what it holds. -/
structure IndexAttr where
  identifier : Bytes
  queryName : Bytes
  typeName : Bytes
  vector : Option VectorInfo
deriving DecidableEq

/-- An aggregate of pairs, in either protocol. -/
structure Pairs (r : ValkeyReply) (pairs : List (Bytes × ValkeyReply)) : Prop where
  aggregate : r.isAggregate = true
  element : ∃ keys : List ValkeyReply, List.Forall₂ (fun k x => k.str = some x.1) keys pairs ∧
    r.element = (keys.zip (pairs.map Prod.snd)).flatMap fun (k, v) => [some k, some v]

/-- A leaf with a text that holds no NUL. -/
def Leaf (pairs : List (Bytes × ValkeyReply)) (name : String) (text : Bytes) : Prop :=
  ∃ v, pairs.lookup (ascii name) = some v ∧ v.str = some text ∧ (0 : UInt8) ∉ text

structure VectorInfo.Describes (v : VectorInfo) (r : ValkeyReply) : Prop where
  pairs : ∃ pairs, Pairs r pairs ∧ Leaf pairs "distance_metric" v.metric ∧
    Leaf pairs "data_type" v.dataType ∧
    ∃ n, pairs.lookup (ascii "dimensions") = some n ∧ n.type = .integer ∧ n.integer = v.dims

structure IndexAttr.Describes (a : IndexAttr) (r : ValkeyReply) : Prop where
  pairs : ∃ pairs, Pairs r pairs ∧ Leaf pairs "identifier" a.identifier ∧
    Leaf pairs "type" a.typeName ∧
    ∀ v, a.vector = some v → ∃ idx, pairs.lookup (ascii "index") = some idx ∧ v.Describes idx
  /-- Only a vector has the type of one. -/
  vector : a.typeName = ascii "VECTOR" ↔ a.vector ≠ none

/-- The answer lists the attributes of an index in order. -/
def DescribesIndex (attrs : List IndexAttr) (r : ValkeyReply) : Prop :=
  ∃ pairs list, Pairs r pairs ∧ pairs.lookup (ascii "attributes") = some list ∧
    list.type = .array ∧ ∃ rs : List ValkeyReply, list.element = rs.map some ∧
      List.Forall₂ IndexAttr.Describes attrs rs

section Walk

@[simp] theorem ok_bind {ε α β : Type} (a : α) (f : α → Except ε β) : (Except.ok a >>= f) = f a :=
  rfl

variable {r : ValkeyReply} {pairs : List (Bytes × ValkeyReply)}

theorem subFrom_pairs (keys : List ValkeyReply) (pairs : List (Bytes × ValkeyReply))
    (h : List.Forall₂ (fun k x => k.str = some x.1) keys pairs) (name : Bytes) :
    let element := (keys.zip (pairs.map Prod.snd)).flatMap fun (k, v) => [some k, some v]
    subFrom name element = .ok (pairs.lookup name) ∧
      lookupFrom name element = .ok (pairs.lookup name) := by
  induction h with
  | nil => exact ⟨rfl, rfl⟩
  | @cons k x keys pairs hk _ ih =>
    obtain ⟨n, v⟩ := x
    dsimp only at hk ih ⊢
    simp only [List.map_cons, List.zip_cons_cons, List.flatMap_cons, List.cons_append,
      List.nil_append, subFrom, lookupFrom, searchChild, ok_bind, hk, Option.some.injEq,
      List.lookup_cons]
    by_cases hName : n = name
    · subst hName
      simp only [beq_self_eq_true, if_true]
      exact ⟨rfl, rfl⟩
    · have hBeq : (name == n) = false := beq_false_of_ne (Ne.symm hName)
      simp only [hBeq, if_neg hName]
      exact ih

theorem Pairs.infoSub (h : Pairs r pairs) (name : String) :
    infoSub (some r) name = .ok (pairs.lookup (ascii name)) := by
  obtain ⟨keys, hKeys, hElement⟩ := h.element
  rw [ValkeyReply.infoSub, if_pos h.aggregate, hElement]
  exact (subFrom_pairs keys pairs hKeys _).1

theorem takeWhile_of_not_mem {text : Bytes} (h : (0 : UInt8) ∉ text) :
    text.takeWhile (· ≠ 0) = text := by
  rw [List.takeWhile_eq_self_iff]
  intro b hb
  exact decide_eq_true fun hZero => h (hZero ▸ hb)

theorem Pairs.infoStr (h : Pairs r pairs) {name : String} {text : Bytes}
    (hLeaf : Leaf pairs name text) : infoStr (some r) name = .ok (some text) := by
  obtain ⟨keys, hKeys, hElement⟩ := h.element
  obtain ⟨v, hv, hText, hPlain⟩ := hLeaf
  rw [ValkeyReply.infoStr, if_pos h.aggregate, hElement, (subFrom_pairs keys pairs hKeys _).2, hv]
  simp only [Except.map, Option.bind_some, hText, Option.map_some, takeWhile_of_not_mem hPlain]

end Walk

theorem attributeFrom_describes {attrs : List IndexAttr} {rs : List ValkeyReply}
    (h : List.Forall₂ IndexAttr.Describes attrs rs) (field : Bytes) :
    ∃ found, attributeFrom field (rs.map some) = .ok found ∧
      Option.Rel (fun r a => a.Describes r) found (attrs.find? (·.identifier = field)) := by
  induction h with
  | nil => exact ⟨none, rfl, .none⟩
  | @cons a r attrs rs ha _ ih =>
    obtain ⟨pairs, hPairs, hId, -⟩ := ha.pairs
    have hStr := hPairs.infoStr hId
    by_cases hField : a.identifier = field
    · refine ⟨some r, ?_, ?_⟩
      · simp only [List.map_cons, attributeFrom, searchChild, ok_bind, hStr, hField, if_true]
        rfl
      · rw [List.find?_cons_of_pos (by simpa using hField)]
        exact .some ha
    · obtain ⟨found, hFound, hRel⟩ := ih
      refine ⟨found, ?_, ?_⟩
      · have hNe : some a.identifier ≠ some field := by simpa using hField
        simp only [List.map_cons, attributeFrom, searchChild, ok_bind, hStr, if_neg hNe, hFound]
      · rw [List.find?_cons_of_neg (by simpa using hField)]
        exact hRel

/-- A query fits a vector attribute: the metric of its operator, elements of the one type
the wrapper writes, and a vector of the size the index asks for, if it says one. -/
structure VectorInfo.Fits (v : VectorInfo) (metric : Bytes) (qbytes : Nat) : Prop where
  metric : v.metric = metric
  dataType : v.dataType = ascii "FLOAT32"
  size : 0 < v.dims → (qbytes : Int) = v.dims * 4 % 2 ^ 64

theorem error_eq_ok_iff {e : SearchError} {p : Prop} (h : ¬p) :
    (.error e : Except SearchError Unit) = .ok () ↔ p :=
  ⟨nofun, fun hp => absurd hp h⟩

theorem searchCheckLayout_iff {knn : KnnTarget} {v : VectorInfo} {idx : ValkeyReply}
    (h : v.Describes idx) (qbytes : Nat) :
    searchCheckLayout knn (some idx) qbytes = .ok () ↔
      v.dataType = ascii "FLOAT32" ∧ (0 < v.dims → (qbytes : Int) = v.dims * 4 % 2 ^ 64) := by
  obtain ⟨pairs, hPairs, -, hType, n, hDims, hInteger, hValue⟩ := h.pairs
  have hInt : infoInt (some idx) "dimensions" = .ok v.dims := by
    rw [infoInt, hPairs.infoSub, hDims]
    simp only [Except.map, hInteger, if_true, hValue]
  rw [searchCheckLayout, hPairs.infoStr hType]
  change (if some v.dataType ≠ some (ascii "FLOAT32") then _ else _) = _ ↔ _
  by_cases hFloat : v.dataType = ascii "FLOAT32"
  · rw [if_neg (by simp [hFloat]), hInt]
    change (if 0 < v.dims ∧ (qbytes : Int) ≠ v.dims * 4 % 2 ^ 64 then _ else _) = _ ↔ _
    by_cases hSize : 0 < v.dims ∧ (qbytes : Int) ≠ v.dims * 4 % 2 ^ 64
    · rw [if_pos hSize]
      exact error_eq_ok_iff fun hFits => hSize.2 (hFits.2 hSize.1)
    · rw [if_neg hSize]
      rw [not_and, not_not] at hSize
      exact ⟨fun _ => ⟨hFloat, hSize⟩, fun _ => rfl⟩
  · rw [if_pos (by simpa using hFloat)]
    exact error_eq_ok_iff fun hFits => hFloat hFits.1

/-- Of an answer that describes an index, in either protocol, a query passes exactly if the
first attribute over its field is a vector that it fits. -/
theorem searchVerify_iff (knn : KnnTarget) {attrs : List IndexAttr} {info : ValkeyReply}
    (h : DescribesIndex attrs info) (qbytes : Nat) :
    searchVerify knn info qbytes = .ok () ↔
      ∃ a v, attrs.find? (·.identifier = knn.field) = some a ∧ a.vector = some v ∧
        v.Fits knn.metric qbytes := by
  obtain ⟨pairs, list, hPairs, hList, hArray, rs, hElement, hAttrs⟩ := h
  have hType : info.type ≠ .error := by
    intro hError
    have hAggregate := hPairs.aggregate
    simp [isAggregate, hError] at hAggregate
  obtain ⟨found, hFound, hRel⟩ := attributeFrom_describes hAttrs knn.field
  have hAttribute : infoAttribute info knn.field = .ok found := by
    rw [infoAttribute, hPairs.infoSub, hList]
    change (if list.type = .array then _ else _) = _
    rw [if_pos hArray, hElement, hFound]
  rw [searchVerify, if_neg hType, searchVectorAttr, hAttribute]
  generalize attrs.find? (·.identifier = knn.field) = first at hRel ⊢
  cases hRel with
  | none => exact error_eq_ok_iff (by simp)
  | @some r a hDescribes =>
    obtain ⟨qs, hQs, -, hName, hIndex⟩ := hDescribes.pairs
    simp only [ok_bind, hQs.infoStr hName, Option.some.injEq]
    cases hVector : a.vector with
    | none =>
      have hOther : a.typeName ≠ ascii "VECTOR" := fun hIs => hDescribes.vector.mp hIs hVector
      rw [if_neg hOther]
      exact error_eq_ok_iff (by simp [hVector])
    | some v =>
      obtain ⟨idx, hIdx, hInfo⟩ := hIndex v hVector
      obtain ⟨ps, hPs, hMetric, -⟩ := hInfo.pairs
      have hIs : a.typeName = ascii "VECTOR" := hDescribes.vector.mpr (by simp [hVector])
      rw [if_pos hIs, hQs.infoSub, hIdx]
      simp only [ok_bind, hPs.infoStr hMetric]
      have hThis : (∃ a' v', a = a' ∧ a'.vector = some v' ∧
          v'.Fits knn.metric qbytes) ↔ v.Fits knn.metric qbytes := by
        simp [hVector]
      rw [hThis]
      by_cases hSame : v.metric = knn.metric
      · rw [if_neg (by simp [hSame]), searchCheckLayout_iff hInfo]
        exact ⟨fun hFits => ⟨hSame, hFits.1, hFits.2⟩, fun hFits => ⟨hFits.dataType, hFits.size⟩⟩
      · rw [if_pos (by simpa using hSame)]
        exact error_eq_ok_iff fun hFits => hSame hFits.metric

/-! ## What a server answers -/

section Answer

def replyOfText (text : Bytes) : ValkeyReply := ⟨.string, 0, some text, []⟩

def replyOfPairs (type : ReplyType) (pairs : List (Bytes × ValkeyReply)) : ValkeyReply :=
  ⟨type, 0, none, pairs.flatMap fun (name, v) => [some (replyOfText name), some v]⟩

def VectorInfo.reply (type : ReplyType) (v : VectorInfo) : ValkeyReply :=
  replyOfPairs type
    [(ascii "dimensions", ⟨.integer, v.dims, none, []⟩),
      (ascii "distance_metric", replyOfText v.metric),
      (ascii "data_type", replyOfText v.dataType)]

def IndexAttr.reply (type : ReplyType) (a : IndexAttr) : ValkeyReply :=
  replyOfPairs type
    ([(ascii "identifier", replyOfText a.identifier), (ascii "attribute", replyOfText a.queryName),
      (ascii "type", replyOfText a.typeName)] ++
      (a.vector.map fun v => (ascii "index", v.reply type)).toList)

variable {type : ReplyType}

end Answer

end ValkeyFdw
