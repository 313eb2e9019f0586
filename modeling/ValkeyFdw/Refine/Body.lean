import ValkeyFdw.Refine.Index

/-!
# What an operation leaves under its key

The commands of an operation edit the value under its key one after another.
Read as edits of the hash, the fields of a row come first and their expiries
after them, so that the last column of each field name decides
(`lookup_fieldsAfter`). `created` is the value of a row inserted under a name that
holds nothing.
-/

namespace ValkeyFdw

open Server Trace

/-! ## Edits of one collection -/

/-- Commands that each edit a collection add up to the edits in order. -/
theorem run_edits [Doubles] {now : Nat} {ι T : Type} {C : Collection T} {k : Bytes} {l : List ι}
    (act : ι → Action) {e : ι → T → T}
    (hEdit : ∀ i ∈ l, ∀ ks ks', (act i).exec now k ks = .ok ks' → onCollection C k (e i) ks = .ok ks')
    {ks ks' : Keyspace} (hRun : run (execStep now) (l.map fun i => (k, act i)) ks = .ok ks') {t : T}
    (ht : C.read (ks k) = some t) : C.read (ks' k) = some (l.foldl (fun t i => e i t) t) := by
  induction l generalizing ks t with
  | nil =>
    cases hRun
    exact ht
  | cons i l ih =>
    rw [List.forall_mem_cons] at hEdit
    rw [List.map_cons] at hRun
    obtain ⟨ks₁, hExec, hRest⟩ := run_cons_ok.mp hRun
    obtain ⟨t', ht', rfl⟩ := onCollection_ok.mp (hEdit.1 ks ks₁ hExec)
    rw [ht, Option.some.injEq] at ht'
    subst ht'
    exact ih hEdit.2 hRest (by rw [Function.update_self, C.read_write])

/-! ## The fields of a row -/

def WriteArg.edit (a : WriteArg) (h : Fields) : Fields :=
  match a.data with
  | none => h.erase a.name
  | some v => h.insert a.name ⟨v, none⟩

def TtlArg.edit (now : Nat) (t : TtlArg) (h : Fields) : Fields :=
  match t.ms with
  | none => persistField t.name h
  | some ms => expireField now t.name ms h

/-- The hash after the fields and then the expiries of a row. -/
def WriteOp.fieldsAfter (now : Nat) (op : WriteOp) (h : Fields) : Fields :=
  op.ttls.foldl (fun h t => t.edit now h) (op.fields.foldl (fun h a => a.edit h) h)

/-- What the last column of a field says: the data, or that the field goes. -/
def WriteOp.lastField (op : WriteOp) (f : Bytes) : Option (Option Bytes) :=
  lastWrite (fun a : WriteArg => if a.name = f then some a.data else none) op.fields

/-- What the last ttl column of a field says. -/
def WriteOp.lastTtl (op : WriteOp) (f : Bytes) : Option (Option Nat) :=
  lastWrite (fun t : TtlArg => if t.name = f then some t.ms else none) op.ttls

theorem WriteArg.lookup_edit (a : WriteArg) (h : Fields) (f : Bytes) :
    (a.edit h).lookup f =
      if a.name = f then a.data.map (HField.mk · none) else h.lookup f := by
  unfold edit
  by_cases hf : a.name = f
  · subst hf
    cases a.data <;> simp
  · cases a.data <;> simp [hf, Ne.symm hf]

theorem TtlArg.lookup_edit {now : Nat} {t : TtlArg} (ht : t.ms ≠ some 0) (h : Fields) (f : Bytes) :
    (t.edit now h).lookup f = (h.lookup f).map fun x =>
      if t.name = f then { x with expireAt := t.ms.map (now + ·) } else x := by
  unfold edit
  cases hms : t.ms with
  | none =>
    dsimp only
    unfold persistField
    by_cases hf : t.name = f
    · subst hf
      cases hx : h.lookup t.name <;> simp [hx]
    · cases hx : h.lookup t.name <;> simp [hf, Ne.symm hf]
  | some ms =>
    have hZero : ms ≠ 0 := by simpa [hms] using ht
    dsimp only
    unfold expireField
    by_cases hf : t.name = f
    · subst hf
      cases hx : h.lookup t.name <;> simp [hx, hZero]
    · cases hx : h.lookup t.name <;> simp [hf, Ne.symm hf, hZero]

theorem lookup_fields (args : List WriteArg) (h : Fields) (f : Bytes) :
    (args.foldl (fun h a => a.edit h) h).lookup f =
      ((lastWrite (fun a : WriteArg => if a.name = f then some a.data else none) args).map
        (Option.map (HField.mk · none))).getD (h.lookup f) := by
  induction args generalizing h with
  | nil => rfl
  | cons a args ih =>
    rw [List.foldl_cons, ih, a.lookup_edit, lastWrite]
    cases lastWrite (fun a : WriteArg => if a.name = f then some a.data else none) args with
    | some d => rfl
    | none =>
      rw [Option.none_or]
      split <;> rfl

theorem lookup_ttls {now : Nat} {ttls : List TtlArg} (hTtls : ∀ t ∈ ttls, t.ms ≠ some 0)
    (h : Fields) (f : Bytes) :
    (ttls.foldl (fun h t => t.edit now h) h).lookup f = (h.lookup f).map fun x =>
      { x with expireAt :=
        ((lastWrite (fun t : TtlArg => if t.name = f then some t.ms else none) ttls).map
          (Option.map (now + ·))).getD x.expireAt } := by
  induction ttls generalizing h with
  | nil => simp [lastWrite]
  | cons t ttls ih =>
    rw [List.forall_mem_cons] at hTtls
    rw [List.foldl_cons, ih hTtls.2, t.lookup_edit hTtls.1, lastWrite, Option.map_map]
    congr 1
    funext x
    cases lastWrite (fun t : TtlArg => if t.name = f then some t.ms else none) ttls with
    | some ms => simp only [Option.some_or, Function.comp]; split <;> rfl
    | none => simp only [Option.none_or, Function.comp]; split <;> rfl

theorem WriteOp.lookup_fieldsAfter {now : Nat} {op : WriteOp} (hTtls : ∀ t ∈ op.ttls, t.ms ≠ some 0)
    (h : Fields) (f : Bytes) :
    (op.fieldsAfter now h).lookup f =
      (((op.lastField f).map (Option.map (HField.mk · none))).getD (h.lookup f)).map fun x =>
        { x with expireAt := ((op.lastTtl f).map (Option.map (now + ·))).getD x.expireAt } := by
  rw [fieldsAfter, lookup_ttls hTtls, lookup_fields]
  rfl

section Hash

variable [Doubles] {now : Nat} {op : WriteOp} {ks ks' : Keyspace}

theorem run_fields (hRun : run (execStep now)
      ((op.fields.map WriteOp.fieldAction ++ op.ttls.map ttlAction).map fun a => (op.key, a)) ks =
        .ok ks') {h : Fields} (hRead : hashes.read (ks op.key) = some h) :
    hashes.read (ks' op.key) = some (op.fieldsAfter now h) := by
  rw [List.map_append, List.map_map, List.map_map] at hRun
  obtain ⟨mid, hFields, hTtls⟩ := run_append_ok.mp hRun
  have hMid := run_edits WriteOp.fieldAction (C := hashes) (e := WriteArg.edit)
    (fun a _ ks ks' hExec => ?_) hFields hRead
  · refine run_edits ttlAction (C := hashes) (e := fun t => t.edit now)
      (fun t _ ks ks' hExec => ?_) hTtls hMid
    unfold ttlAction at hExec
    unfold TtlArg.edit
    cases hms : t.ms with
    | none =>
      rw [hms] at hExec
      exact hExec
    | some ms =>
      rw [hms] at hExec
      exact (hpexpire_ok.mp hExec).2
  · unfold WriteOp.fieldAction at hExec
    unfold WriteArg.edit
    cases hData : a.data with
    | none =>
      rw [hData] at hExec
      exact hExec
    | some v =>
      rw [hData] at hExec
      exact hExec

end Hash

/-! ## Packed rows -/

/-- The hash that an array of alternating fields and values denotes: the last
value of a field counts. -/
def packedFields : List Bytes → Fields → Fields
  | f :: v :: rest, h => packedFields rest (h.insert f ⟨v, none⟩)
  | _, h => h

/-- The collection that the array of a packed row denotes. -/
def packedValue (t : TableType) (packed : List Bytes) : Option Value :=
  match t with
  | .list => lists.write packed
  | .set => sets.write packed.toFinset
  | .hash => hashes.write (packedFields packed ∅)
  | .string | .zset | .vector => none

theorem packedValue_eq_none {t : TableType} {packed : List Bytes}
    (hType : t = .hash ∨ t = .set ∨ t = .list) : packedValue t packed = none ↔
      if t = .hash then packed.length < 2 else packed = [] := by
  rcases hType with rfl | rfl | rfl
  · rw [if_pos rfl]
    refine Cell.Facet.ofPrism_write_eq_none.trans ?_
    match packed with
    | [] => simp [packedFields]
    | [_] => simp [packedFields]
    | f :: v :: rest =>
      refine iff_of_false (fun hEmpty => ?_) (by simp)
      have hKept : ∀ (rest : List Bytes) (h : Fields), f ∈ h → f ∈ packedFields rest h := by
        intro rest h
        induction rest, h using packedFields.induct with
        | case1 h f' v' rest ih =>
          exact fun hf => ih (Finmap.mem_insert.mpr (.inr hf))
        | case2 h l hl =>
          intro hf
          rw [packedFields]
          · exact hf
          · exact hl
      have hMem := hKept rest ((∅ : Fields).insert f ⟨v, none⟩) (Finmap.mem_insert.mpr (.inl rfl))
      rw [packedFields] at hEmpty
      rw [hEmpty] at hMem
      exact Finmap.notMem_empty hMem
  · exact Cell.Facet.ofPrism_write_eq_none.trans (List.toFinset_eq_empty_iff packed)
  · exact Cell.Facet.ofPrism_write_eq_none

theorem foldl_rpush (packed l : List Bytes) :
    packed.foldl (fun l x => l ++ [x]) l = l ++ packed := by
  induction packed generalizing l with
  | nil => simp
  | cons x packed ih => rw [List.foldl_cons, ih, List.append_assoc, List.singleton_append]

theorem mem_foldl_insert {packed : List Bytes} {s : Finset Bytes} {x : Bytes} :
    x ∈ packed.foldl (fun s y => insert y s) s ↔ x ∈ s ∨ x ∈ packed := by
  induction packed generalizing s with
  | nil => simp
  | cons y packed ih => rw [List.foldl_cons, ih, Finset.mem_insert, List.mem_cons]; tauto

section Packed

variable [Doubles] {now : Nat} {op : WriteOp} {ks ks' : Keyspace} {k : Bytes}

theorem run_packPairs {packed : List Bytes}
    (hRun : run (execStep now) ((packPairs packed).map fun a => (k, a)) ks = .ok ks') {h : Fields}
    (hRead : hashes.read (ks k) = some h) :
    hashes.read (ks' k) = some (packedFields packed h) := by
  induction packed using packPairs.induct generalizing ks h with
  | case1 f v rest ih =>
    rw [packPairs, List.map_cons] at hRun
    obtain ⟨ks₁, hExec, hRest⟩ := run_cons_ok.mp hRun
    obtain ⟨t, ht, rfl⟩ := onCollection_ok.mp hExec
    rw [hRead, Option.some.injEq] at ht
    subst ht
    exact ih hRest (by rw [Function.update_self, hashes.read_write])
  | case2 l hl =>
    rw [packPairs] at hRun
    · rw [packedFields]
      · cases hRun
        exact hRead
      · exact hl
    · exact hl

/-- A packed row leaves the collection its array denotes, whatever was there before. -/
theorem run_packed (hRun : run (execStep now)
      ((Action.del :: op.packedActions).map fun a => (op.key, a)) ks = .ok ks') :
    ks' op.key = packedValue op.tabletype op.packed := by
  rw [List.map_cons] at hRun
  obtain ⟨mid, hDel, hRest⟩ := run_cons_ok.mp hRun
  have hMid : mid op.key = none := by
    cases hDel
    exact Function.update_self ..
  have hWritten : ∀ {T : Type} (C : Collection T) {t : T}, C.read (ks' op.key) = some t →
      ks' op.key = C.write t := fun C _ h => (C.write_read h).symm
  unfold WriteOp.packedActions at hRest
  unfold packedValue
  cases hType : op.tabletype with
  | string | zset | vector =>
    rw [hType] at hRest
    cases hRest
    exact hMid
  | list =>
    rw [hType] at hRest
    simp only [List.map_map] at hRest
    have hRead := run_edits Action.rpush (C := lists) (e := fun x l => l ++ [x])
      (fun x _ ks ks' hExec => hExec) hRest (t := []) (by rw [hMid]; rfl)
    rw [hWritten lists hRead, foldl_rpush]
    rfl
  | set =>
    rw [hType] at hRest
    simp only [List.map_map] at hRest
    have hRead := run_edits Action.sadd (C := sets) (e := fun x s => insert x s)
      (fun x _ ks ks' hExec => hExec) hRest (t := ∅) (by rw [hMid]; rfl)
    rw [hWritten sets hRead]
    congr 1
    ext x
    simp [mem_foldl_insert]
  | hash =>
    rw [hType] at hRest
    exact hWritten hashes (run_packPairs hRest (by rw [hMid]; rfl))

end Packed

/-! ## Inserted rows -/

/-- The value of a row inserted under a name that holds nothing. -/
def WriteOp.created [Doubles] (now : Nat) (op : WriteOp) : Option Value :=
  if op.packedShape then packedValue op.tabletype op.packed
  else match op.tabletype with
    | .string => op.value.map .string
    | .hash => hashes.write (op.fieldsAfter now ∅)
    | .list => lists.write op.member.toList
    | .set => sets.write op.member.toFinset
    | .zset => zsets.write (op.member.elim ∅ fun x =>
        Finmap.insert x ((Doubles.canon (op.score.getD [0x30])).getD []) ∅)
    | .vector => none

/-- The edit of the members of a key: the old one goes and the new one comes. -/
def WriteOp.editMember {T : Type} (op : WriteOp) (rem add : Bytes → T → T) (x : Bytes) (t : T) : T :=
  if op.kind = .delete then rem x t
  else add x (if op.kind = .update ∧ op.oldmember.getD x ≠ x then rem (op.oldmember.getD x) t else t)

/-- What an operation leaves under its key, where it found `e`. -/
def WriteOp.leaves [Doubles] (now : Nat) (op : WriteOp) (e : Option Value) : Option Value :=
  if op.deletesKey then none
  else if op.packedShape then packedValue op.tabletype op.packed
  else match op.tabletype with
    | .string => (op.value.map .string).or e
    | .hash => hashes.edit (op.fieldsAfter now) e
    | .list => op.member.elim e fun x =>
        lists.edit (fun l => if op.kind = .delete then l.erase x else l ++ [x]) e
    | .set => op.member.elim e fun x =>
        sets.edit (op.editMember (fun y s => s.erase y) insert x) e
    | .zset => op.member.elim e fun x => zsets.edit (op.editMember (fun y z => z.erase y)
        (fun y z => z.insert y ((Doubles.canon (op.score.getD [0x30])).getD [])) x) e
    | .vector => e

section Leaves

variable [Doubles] {now : Nat} {op : WriteOp} {ks ks' : Keyspace}

theorem run_memberActions {z : Bool} {T : Type} {C : Collection T} {rem add : Bytes → T → T}
    (hRem : ∀ x ks ks', (remMember z x).exec now op.key ks = .ok ks' →
      onCollection C op.key (rem x) ks = .ok ks')
    (hAdd : ∀ x ks ks', (addMember z op x).exec now op.key ks = .ok ks' →
      onCollection C op.key (add x) ks = .ok ks')
    (hRun : run (execStep now) ((op.memberActions z).map fun a => (op.key, a)) ks = .ok ks') :
    ks' op.key = op.member.elim (ks op.key) fun x => C.edit (op.editMember rem add x) (ks op.key) := by
  unfold WriteOp.memberActions at hRun
  cases hMember : op.member with
  | none =>
    rw [hMember] at hRun
    cases hRun
    rfl
  | some x =>
    rw [hMember] at hRun
    dsimp only at hRun
    split_ifs at hRun with hDel hMove
    · have hEdit : op.editMember rem add x = rem x := by
        funext t
        rw [WriteOp.editMember, if_pos hDel]
      rw [Option.elim_some, hEdit]
      exact onCollection_edit (hRem x ks ks' ((run_singleton _ _).symm.trans hRun))
    · have hEdit : op.editMember rem add x = fun t => add x (rem (op.oldmember.getD x) t) := by
        funext t
        rw [WriteOp.editMember, if_neg hDel, if_pos hMove]
      obtain ⟨mid, hFirst, hSecond⟩ := run_cons_ok.mp hRun
      obtain ⟨t, ht, rfl⟩ := onCollection_ok.mp (hRem _ ks mid hFirst)
      rw [onCollection_edit (hAdd x _ ks' ((run_singleton _ _).symm.trans hSecond)),
        Function.update_self, Collection.edit, C.read_write, Option.elim_some, Option.elim_some,
        hEdit, Collection.edit, ht, Option.elim_some]
    · have hEdit : op.editMember rem add x = add x := by
        funext t
        rw [WriteOp.editMember, if_neg hDel, if_neg hMove]
      rw [Option.elim_some, hEdit]
      exact onCollection_edit (hAdd x ks ks' ((run_singleton _ _).symm.trans hRun))

/-- The commands of an operation on a key of its type leave what it is said to leave. -/
theorem body_leaves (hType : HoldsType op.tabletype.valueType (ks op.key))
    (hRun : run (execStep now) (op.body.map fun a => (op.key, a)) ks = .ok ks') :
    ks' op.key = op.leaves now (ks op.key) := by
  unfold WriteOp.body at hRun
  unfold WriteOp.leaves
  by_cases hDel : op.deletesKey = true
  · rw [if_pos hDel] at hRun ⊢
    cases hRun
    exact Function.update_self ..
  rw [if_neg hDel] at hRun ⊢
  by_cases hPacked : op.packedShape = true
  · rw [if_pos hPacked] at hRun ⊢
    exact run_packed hRun
  rw [if_neg hPacked] at hRun ⊢
  unfold WriteOp.shapeActions at hRun
  cases hTable : op.tabletype with
  | vector =>
    rw [hTable] at hRun
    cases hRun
    rfl
  | string =>
    rw [hTable] at hRun
    cases hValue : op.value with
    | none =>
      rw [hValue] at hRun
      cases hRun
      rfl
    | some v =>
      rw [hValue] at hRun
      cases hRun
      exact Function.update_self ..
  | hash =>
    rw [hTable] at hRun hType
    obtain ⟨h, hRead⟩ := (hashes.read_iff _).mpr hType
    rw [Collection.edit, hRead]
    exact (hashes.write_read (run_fields hRun hRead)).symm
  | list =>
    rw [hTable] at hRun
    unfold WriteOp.listActions at hRun
    cases hMember : op.member with
    | none =>
      rw [hMember] at hRun
      cases hRun
      rfl
    | some x =>
      rw [hMember] at hRun
      dsimp only at hRun
      split_ifs at hRun with hKind
      · simp only [if_pos hKind]
        exact onCollection_edit ((run_singleton _ _).symm.trans hRun)
      · simp only [if_neg hKind]
        exact onCollection_edit ((run_singleton _ _).symm.trans hRun)
  | set =>
    rw [hTable] at hRun
    exact @run_memberActions _ now op ks ks' false _ sets _ _ (fun _ _ _ h => h)
      (fun _ _ _ h => h) hRun
  | zset =>
    rw [hTable] at hRun
    refine @run_memberActions _ now op ks ks' true _ zsets _ _ (fun _ _ _ h => h)
      (fun x ks ks' h => ?_) hRun
    obtain ⟨score, hScore, h⟩ := zadd_ok.mp
      (show zadd op.key (op.score.getD [0x30]) x ks = .ok ks' from h)
    rw [hScore]
    exact h

theorem body_created (hKind : op.kind = .insert) (hAbsent : ks op.key = none)
    (hRun : run (execStep now) (op.body.map fun a => (op.key, a)) ks = .ok ks') :
    ks' op.key = op.created now := by
  rw [body_leaves (by rw [hAbsent]; exact holdsType_none _) hRun, hAbsent, WriteOp.leaves,
    WriteOp.created, if_neg (by simp [WriteOp.deletesKey, hKind])]
  have hAdd : ∀ {T : Type} (rem add : Bytes → T → T) (x : Bytes),
      op.editMember rem add x = add x := by
    intro T rem add x
    funext t
    simp [WriteOp.editMember, hKind]
  refine if_congr Iff.rfl rfl ?_
  cases op.tabletype with
  | string => exact Option.or_none
  | hash | vector => rfl
  | list => cases op.member <;> simp [hKind] <;> rfl
  | set | zset =>
    simp only [hAdd]
    cases op.member <;> rfl

end Leaves

/-- A sorted set takes a member only with a score that the server can read. -/
theorem body_canon [Doubles] {now : Nat} {op : WriteOp} (hKind : op.kind = .insert)
    (hPacked : op.packedShape = false) (hType : op.tabletype = .zset) {x : Bytes}
    (hMember : op.member = some x) {ks ks' : Keyspace}
    (hRun : run (execStep now) (op.body.map fun a => (op.key, a)) ks = .ok ks') :
    (Doubles.canon (op.score.getD [0x30])).isSome := by
  have hBody : op.body = [.zadd (op.score.getD [0x30]) x] := by
    simp [WriteOp.body, WriteOp.deletesKey, WriteOp.shapeActions, WriteOp.memberActions,
      addMember, hKind, hPacked, hType, hMember]
  rw [hBody, List.map_singleton, run_singleton] at hRun
  obtain ⟨score, hScore, -⟩ := zadd_ok.mp
    (show zadd op.key (op.score.getD [0x30]) x ks = .ok ks' from hRun)
  rw [hScore]
  rfl

end ValkeyFdw
