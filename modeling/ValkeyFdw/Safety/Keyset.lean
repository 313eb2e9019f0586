import ValkeyFdw.Refine.Body
import ValkeyFdw.Refine.Contents
import ValkeyFdw.Safety.Loss

/-!
# The keyset index

A table with a keyset keeps the names of its keys in a set. The ledger takes a
name out of it when a whole key is deleted or renamed away, and enters one when
a row is inserted or a key renamed to it; a key that Valkey drops because its
last field, member or element went away is not noticed.

The program runs the operations key by key, and the last one about a key decides what is
left there (`LastAbout.left`). The index stays exact if and only if that one leaves the key
empty just where the key was taken out of the index last (`keyset_exact_iff`).
-/

namespace ValkeyFdw

open Server Trace

/-! ## The order of the program -/

/-- The keys that the operations name, in the order in which they are first named. -/
def touchOrder (ops : List WriteOp) : List Bytes :=
  ops.foldl (fun keys op => keys ++ op.names.filter (· ∉ keys)) []

/-- The operations key by key, the keys in the order in which they are first named. -/
def byKey (ops : List WriteOp) : List WriteOp :=
  (touchOrder ops).flatMap fun k => ops.filter (·.key = k)

section Order

variable {ops : List WriteOp} {L L' : Ledger}

theorem foldOps_keys (h : foldOps ops L = .ok L') :
    L'.keys = ops.foldl (fun keys op => keys ++ op.names.filter (· ∉ keys)) L.keys := by
  induction ops generalizing L with
  | nil =>
    cases h
    rfl
  | cons op ops ih =>
    obtain ⟨L₁, hNote, hRest⟩ := foldOps_cons.mp h
    obtain ⟨plan, hStep⟩ := note_spec hNote
    rw [ih hRest, hStep.keys, List.foldl_cons]

/-- The plan of a key holds the actions of the operations on it, one after another. -/
theorem foldOps_actionsOf (h : foldOps ops L = .ok L') (hZset : Along note ZsetAgrees ops L)
    (k : Bytes) : L'.actionsOf k = L.actionsOf k ++
      (ops.filter (·.key = k)).flatMap fun op => op.actions (op.tabletype = .zset) := by
  induction ops generalizing L with
  | nil =>
    cases h
    simp
  | cons op ops ih =>
    obtain ⟨L₁, hNote, hRest⟩ := foldOps_cons.mp h
    obtain ⟨plan, hStep⟩ := note_spec hNote
    obtain ⟨hHere, hTail⟩ := hZset
    rw [ih hRest (hTail L₁ hNote)]
    by_cases hk : op.key = k
    · subst hk
      rw [hStep.actionsOf_key, hHere, List.filter_cons_of_pos (by simp), List.flatMap_cons,
        List.append_assoc]
    · rw [hStep.actionsOf_other (Ne.symm hk), List.filter_cons_of_neg (by simpa using hk)]

/-- The program is the commands of the operations, key by key. -/
theorem planTrace_byKey (hFold : foldOps ops .empty = .ok L)
    (hZset : Along note ZsetAgrees ops .empty) :
    planTrace L.plans = (byKey ops).flatMap WriteOp.commands := by
  have hNone : ∀ k, Ledger.empty.actionsOf k = [] := fun k => rfl
  have hKeys : L.keys = touchOrder ops := foldOps_keys hFold
  rw [Ledger.planTrace_eq, Ledger.traceOf, hKeys, byKey, List.flatMap_assoc]
  refine List.flatMap_congr fun k _ => ?_
  rw [foldOps_actionsOf hFold hZset, hNone, List.nil_append, List.map_flatMap]
  refine List.flatMap_congr fun op hOp => ?_
  have hKey : op.key = k := by simpa using (List.mem_filter.mp hOp).2
  rw [WriteOp.commands, hKey]

theorem mem_byKey (hFold : foldOps ops .empty = .ok L) {op : WriteOp} :
    op ∈ byKey ops ↔ op ∈ ops := by
  simp only [byKey, List.mem_flatMap, List.mem_filter, decide_eq_true_eq]
  constructor
  · rintro ⟨_, -, hOp, -⟩
    exact hOp
  · intro hOp
    have hKeys : L.keys = touchOrder ops := foldOps_keys hFold
    exact ⟨op.key, hKeys ▸ (foldOps_covers hFold).names op hOp _ List.mem_cons_self, hOp, rfl⟩

end Order

/-! ## What an operation leaves -/

/-- There is no other member or element than this one. -/
def Only (x : Bytes) : Option Value → Prop
  | none => True
  | some (.set s) => s.1 = {x}
  | some (.zset z) => z.1.keys = {x}
  | some (.list l) => l.1 = [x]
  | some _ => False

/-- The operation leaves nothing under its key, where it found `e`: it deletes the whole
key or the only member or element, its array is empty, it clears every field or lets it
expire at once, or it writes nothing where nothing was. -/
def WriteOp.Empties (op : WriteOp) (e : Option Value) : Prop :=
  if op.deletesKey then True
  else if op.packedShape then
    if op.tabletype = .hash then op.packed.length < 2 else op.packed = []
  else match op.tabletype with
    | .hash => ∀ f, (op.lastField f).elim (holdsSub e f = true) (fun d => d.isSome = true) →
        ∃ t ∈ op.ttls, t.name = f ∧ t.ms = some 0
    | .set | .zset | .list => op.member.elim (e = none) fun x => op.kind = .delete ∧ Only x e
    | .string => op.value = none ∧ e = none
    | .vector => e = none

section Fields

variable {now : Nat} {op : WriteOp} {f : Bytes}

theorem TtlArg.mem_edit {t : TtlArg} {h : Fields} :
    f ∈ t.edit now h ↔ f ∈ h ∧ (t.name = f → t.ms ≠ some 0) := by
  have hInsert : ∀ {x : HField} (y : HField), h.lookup t.name = some x →
      (f ∈ h.insert t.name y ↔ f ∈ h) := by
    intro x y hx
    rw [Finmap.mem_insert, or_iff_right_of_imp]
    rintro rfl
    exact Finmap.mem_of_lookup_eq_some hx
  unfold edit
  cases hms : t.ms with
  | none =>
    dsimp only
    unfold persistField
    cases hx : h.lookup t.name with
    | none => simp
    | some x => simp [hInsert _ hx]
  | some ms =>
    dsimp only
    unfold expireField
    cases hx : h.lookup t.name with
    | none =>
      refine (and_iff_left_of_imp ?_).symm
      rintro hf rfl
      exact absurd hf (Finmap.lookup_eq_none.mp hx)
    | some x =>
      dsimp only
      by_cases hZero : ms = 0
      · rw [if_pos hZero, Finmap.mem_erase, hZero]
        simp [and_comm, eq_comm]
      · rw [if_neg hZero, hInsert _ hx]
        simp [hZero]

/-- The fields of a row: those that its last column sets, and those it does not mention,
unless they expire at once. -/
theorem WriteOp.mem_fieldsAfter {h : Fields} : f ∈ op.fieldsAfter now h ↔
    (op.lastField f).elim (f ∈ h) (fun d => d.isSome = true) ∧
      ∀ t ∈ op.ttls, t.name = f → t.ms ≠ some 0 := by
  have hTtls : ∀ (ttls : List TtlArg) (h : Fields), f ∈ ttls.foldl (fun h t => t.edit now h) h ↔
      f ∈ h ∧ ∀ t ∈ ttls, t.name = f → t.ms ≠ some 0 := by
    intro ttls
    induction ttls with
    | nil => simp
    | cons t ttls ih =>
      intro h
      rw [List.foldl_cons, ih, TtlArg.mem_edit, List.forall_mem_cons, and_assoc]
  rw [fieldsAfter, hTtls, ← Finmap.lookup_isSome, lookup_fields, ← Finmap.lookup_isSome]
  refine and_congr_left' ?_
  rw [← lastField]
  rcases op.lastField f with _ | _ | v <;> simp

end Fields

section Only

variable {e : Option Value} {x : Bytes}

theorem only_of_sets {t : Finset Bytes} (h : sets.read e = some t) : t.erase x = ∅ ↔ Only x e := by
  rcases e with _ | (_ | _ | _ | s | _ | _) <;> cases h
  · simp [Only]
  · rw [Finset.erase_eq_empty_iff, or_iff_right s.2]
    rfl

theorem only_of_zsets {t : Scores} (h : zsets.read e = some t) : t.erase x = ∅ ↔ Only x e := by
  have hEmpty : t.erase x = ∅ ↔ t.keys.erase x = ∅ := by
    rw [← Finmap.keys_erase]
    constructor
    · intro h
      rw [h, Finmap.keys_empty]
    · exact fun h => by_contra fun hNe => keys_ne_empty hNe h
  rcases e with _ | (_ | _ | _ | _ | z | _) <;> cases h
  · simp [hEmpty, Only]
  · rw [hEmpty, Finset.erase_eq_empty_iff, or_iff_right (keys_ne_empty z.2)]
    rfl

theorem only_of_lists {t : List Bytes} (h : lists.read e = some t) : t.erase x = [] ↔ Only x e := by
  rcases e with _ | (_ | _ | l | _ | _ | _) <;> cases h
  · simp [Only]
  · rw [List.erase_eq_nil_iff, or_iff_right l.2]
    rfl

end Only

section Empties

variable [Doubles] {now : Nat} {op : WriteOp} {ks ks' : Keyspace} {e : Option Value}

omit [Doubles] in
theorem edit_member_eq_none {T : Type} {C : Collection T} {rem add : Bytes → T → T} {t : T}
    {x : Bytes} (hRead : C.read e = some t) (hRem : C.write (rem x t) = none ↔ Only x e)
    (hAdd : ∀ t, C.write (add x t) ≠ none) :
    C.edit (op.editMember rem add x) e = none ↔ op.kind = .delete ∧ Only x e := by
  rw [Collection.edit, hRead, Option.elim_some, WriteOp.editMember]
  by_cases hKind : op.kind = .delete
  · rw [if_pos hKind, hRem, and_iff_right hKind]
  · rw [if_neg hKind]
    exact iff_of_false (hAdd _) fun h => hKind h.1

/-- An operation leaves nothing just where it is said to. -/
theorem WriteOp.leaves_eq_none (hSupported : op.Supported)
    (hType : HoldsType op.tabletype.valueType e) : op.leaves now e = none ↔ op.Empties e := by
  unfold WriteOp.leaves WriteOp.Empties
  by_cases hDel : op.deletesKey = true
  · simp [hDel]
  by_cases hPacked : op.packedShape = true
  · rw [if_neg hDel, if_pos hPacked, if_neg hDel, if_pos hPacked]
    exact packedValue_eq_none (hSupported.packed hPacked)
  rw [if_neg hDel, if_neg hPacked, if_neg hDel, if_neg hPacked]
  have hMember : ∀ f : Bytes → Option Value, (∀ x, f x = none ↔ op.kind = .delete ∧ Only x e) →
      (op.member.elim e f = none ↔ op.member.elim (e = none) fun x => op.kind = .delete ∧ Only x e) := by
    intro f hf
    cases op.member with
    | none => rfl
    | some x => exact hf x
  cases hTable : op.tabletype with
  | vector => rfl
  | string => cases op.value <;> simp
  | hash =>
    rw [hTable] at hType
    obtain ⟨h, hRead⟩ := (hashes.read_iff _).mpr hType
    have hEmpty : op.fieldsAfter now h = ∅ ↔ ∀ f, f ∉ op.fieldsAfter now h := by
      constructor
      · intro hEq f
        rw [hEq]
        exact Finmap.notMem_empty
      · intro hNot
        refine Finmap.ext_lookup fun f => ?_
        rw [Finmap.lookup_eq_none.mpr (hNot f), Finmap.lookup_empty]
    rw [Collection.edit, hRead]
    refine (Cell.Facet.ofPrism_write_eq_none.trans hEmpty).trans (forall_congr' fun f => ?_)
    rw [WriteOp.mem_fieldsAfter, not_and, holdsSub_of_hashes hRead]
    push Not
    rfl
  | set =>
    rw [hTable] at hType
    obtain ⟨t, hRead⟩ := (sets.read_iff _).mpr hType
    refine hMember _ fun x => edit_member_eq_none hRead ?_ fun t hNone => ?_
    · exact Cell.Facet.ofPrism_write_eq_none.trans (only_of_sets hRead)
    · exact Finset.insert_ne_empty x t (Cell.Facet.ofPrism_write_eq_none.mp hNone)
  | zset =>
    rw [hTable] at hType
    obtain ⟨t, hRead⟩ := (zsets.read_iff _).mpr hType
    refine hMember _ fun x => edit_member_eq_none hRead ?_ fun t hNone => ?_
    · exact Cell.Facet.ofPrism_write_eq_none.trans (only_of_zsets hRead)
    · have hMem : x ∈ t.insert x ((Doubles.canon (op.score.getD [0x30])).getD []) :=
        Finmap.mem_insert.mpr (.inl rfl)
      rw [Cell.Facet.ofPrism_write_eq_none.mp hNone] at hMem
      exact Finmap.notMem_empty hMem
  | list =>
    rw [hTable] at hType
    obtain ⟨t, hRead⟩ := (lists.read_iff _).mpr hType
    refine hMember _ fun x => ?_
    rw [Collection.edit, hRead]
    refine Cell.Facet.ofPrism_write_eq_none.trans ?_
    by_cases hKind : op.kind = .delete
    · rw [if_pos hKind, only_of_lists hRead, and_iff_right hKind]
    · simp [hKind]

/-- An operation writes to what it found under its key, or brought there from the old
name, of which it leaves nothing. -/
theorem WriteOp.exec_leaves (hBuffered : op.Buffered)
    (hIndex : ∀ n ∈ op.names, op.keyset ≠ some n)
    (hType : HoldsType op.tabletype.valueType (ks op.source)) (hExec : op.exec now ks = .ok ks')
    {n : Bytes} (hn : n ∈ op.names) :
    ks' n = if n = op.key then op.leaves now (ks op.source) else none := by
  have hKeyset : ∀ {key add start mid}, run (execStep now)
      ((op.keysetActions key add).map fun a => (op.key, a)) start = .ok mid →
      ∀ n ∈ op.names, mid n = start n := fun hRun n hn =>
    run_actions_frame (fun a ha => keysetActions_cells ha (hIndex n hn)) hRun
  by_cases hRen : op.isRename = true
  · obtain ⟨hKind, old, hOld, hne⟩ := WriteOp.isRename_iff.mp hRen
    have hWrite : op.writeActions (op.tabletype = .zset) = op.body := by
      simp [WriteOp.writeActions_eq, WriteOp.indexActions, WriteOp.deletesKey, hKind]
    simp only [WriteOp.exec, WriteOp.commands, WriteOp.actions, hWrite, WriteOp.renameActions, hOld,
      hRen, if_true, List.cons_append, List.map_cons, List.map_append] at hExec
    obtain ⟨ks₁, hRename, hRest⟩ := run_cons_ok.mp hExec
    obtain ⟨v, hv, rfl⟩ := rename_ok.mp hRename
    obtain ⟨start, hEntries, hBody⟩ := run_append_ok.mp hRest
    obtain ⟨ks₂, hRem, hAdd⟩ := run_append_ok.mp hEntries
    have hStart : ∀ n ∈ op.names, start n = _ := fun n hn =>
      (hKeyset hAdd n hn).trans (hKeyset hRem n hn)
    split_ifs with hKey
    · have hFound : start op.key = ks op.source := by
        rw [hStart _ List.mem_cons_self, Function.update_self, WriteOp.source, hOld,
          Option.getD_some, hv]
      rw [hKey, ← hFound]
      exact body_leaves (hFound ▸ hType) hBody
    · obtain rfl : n = old := by simpa [WriteOp.names, hRen, hOld, hKey] using hn
      rw [run_actions_frame (fun a ha => by simpa [WriteOp.body_cells ha] using hKey) hBody,
        hStart n hn, Function.update_of_ne hKey, Function.update_self]
  · rw [Bool.not_eq_true] at hRen
    obtain rfl : n = op.key := by simpa [WriteOp.names, hRen] using hn
    obtain ⟨mid, hBody, hRest⟩ := (WriteOp.exec_iff hRen).mp hExec
    have hOwn : op.source = op.key := by rw [WriteOp.source, hBuffered.oldkey_eq hRen]
    rw [hOwn] at hType
    rw [if_pos rfl, hOwn, ← body_leaves hType hBody]
    unfold WriteOp.indexActions at hRest
    split_ifs at hRest
    · exact hKeyset hRest _ hn
    · exact hKeyset hRest _ hn
    · cases hRest
      rfl

end Empties

/-! ## The index -/

/-- The set under `s` names exactly the existing keys among those that are the table's. -/
def ExactIndex (s : Bytes) (mine : Bytes → Prop) (ks : Keyspace) : Prop :=
  ∃ members, sets.read (ks s) = some members ∧ ∀ k, k ∈ members ↔ mine k ∧ (ks k).isSome

/-- What an action does to the index entry of the key `n`. -/
def Action.entry (n : Bytes) : Action → Option Bool
  | .ksetAdd _ m => if m = n then some true else none
  | .ksetRem _ m => if m = n then some false else none
  | _ => none

theorem Action.entry_of_index_nil {a : Action} {n : Bytes} (h : a.index = []) :
    a.entry n = none := by
  cases a <;> simp_all [index, entry]

/-- What an operation does to the index entry of the key `n`: a name renamed away and a
key deleted whole leave the index, a key inserted or renamed to enters it. -/
def WriteOp.lists (op : WriteOp) (n : Bytes) : Option Bool :=
  if n ∉ op.names then none
  else if n ≠ op.key ∨ op.deletesKey then some false
  else if op.isRename ∨ op.kind = .insert then some true
  else none

/-- What the operations do in the end to the index entry of the key `n`. -/
def entryAfter (ops : List WriteOp) (n : Bytes) : Option Bool := lastWrite (·.lists n) (byKey ops)

theorem WriteOp.lists_of_commands {op : WriteOp} {s n : Bytes} (hs : op.keyset = some s) :
    lastWrite (fun x => x.2.entry n) op.commands = op.lists n := by
  have hBody : lastWrite (fun a => a.entry n) op.body = none := lastWrite_eq_none.mpr fun a ha =>
    Action.entry_of_index_nil (WriteOp.body_plain ha).2
  rw [WriteOp.commands, lastWrite_map, WriteOp.actions, WriteOp.writeActions_eq, lastWrite_append,
    lastWrite_append, hBody, Option.or_none]
  by_cases hRen : op.isRename = true
  · obtain ⟨hKind, old, hOld, hne⟩ := WriteOp.isRename_iff.mp hRen
    have hDel : op.deletesKey = false := by simp [WriteOp.deletesKey, hKind]
    by_cases hKey : n = op.key
    · subst hKey
      simp [WriteOp.lists, WriteOp.names, WriteOp.indexActions, WriteOp.renameActions, hOld, hRen,
        hDel, hKind, WriteOp.keysetActions, hs, lastWrite, Action.entry]
    · by_cases hn : n = old
      · subst hn
        simp [WriteOp.lists, WriteOp.names, WriteOp.indexActions, WriteOp.renameActions, hOld, hRen,
          hDel, hKind, WriteOp.keysetActions, hs, lastWrite, Action.entry, hKey, Ne.symm hKey]
      · simp [WriteOp.lists, WriteOp.names, WriteOp.indexActions, WriteOp.renameActions, hOld, hRen,
          hDel, hKind, WriteOp.keysetActions, hs, lastWrite, Action.entry, hKey, Ne.symm hKey, hn,
          Ne.symm hn]
  · rw [Bool.not_eq_true] at hRen
    rw [WriteOp.renameActions_of_not hRen]
    by_cases hKey : n = op.key
    · subst hKey
      unfold WriteOp.indexActions
      split_ifs <;>
        simp_all [WriteOp.lists, WriteOp.names, WriteOp.keysetActions, lastWrite, Action.entry]
    · unfold WriteOp.indexActions
      split_ifs <;>
        simp_all [WriteOp.lists, WriteOp.names, WriteOp.keysetActions, lastWrite, Action.entry,
          Ne.symm hKey]

section Index

variable [Doubles] {now : Nat} {ops : List WriteOp} {L : Ledger} {ks ks' : Keyspace} {s n : Bytes}

/-- A command of the program edits the index as its action says, or leaves it alone. -/
theorem Ledger.From.index_step (hL : L.From ops) (hKeyset : ∀ op ∈ ops, op.keyset = some s)
    (hRow : ∀ op ∈ ops, s ∉ op.names) {x : Bytes × Action} (hx : x ∈ planTrace L.plans)
    (h : execStep now x ks = .ok ks') :
    (ks' s = ks s ∧ x.2.entry n = none) ∨
      ∃ f : Finset Bytes → Finset Bytes, onCollection sets s f ks = .ok ks' ∧
        ∀ t, n ∈ f t ↔ (x.2.entry n).getD (decide (n ∈ t)) = true := by
  obtain ⟨k, a⟩ := x
  rw [Ledger.planTrace_eq, Ledger.mem_traceOf] at hx
  obtain ⟨op, hOp, op', -, rfl, -, ha⟩ := hL.actions hx.2
  have hWithin := (opAction_of_mem ha).within
  rcases a.index_cases op.key with hIndex | ⟨s', hIndex, -⟩
  · refine .inl ⟨(Action.localTo now op.key a).frame h s fun hs => hRow op hOp ?_,
      Action.entry_of_index_nil hIndex⟩
    rw [Set.mem_ofPred_eq, Action.cells_of_index_nil hIndex] at hs
    exact hWithin.keys s hs
  · have hs' : s' = s := by
      have hs := hWithin.index s' (by simp [hIndex])
      rw [hKeyset op hOp] at hs
      exact (Option.some.inj hs).symm
    subst hs'
    refine .inr ?_
    cases a with
    | ksetAdd _ m =>
      cases hIndex
      refine ⟨_, h, fun t => ?_⟩
      by_cases hm : m = n
      · simp [Action.entry, hm]
      · simp [Action.entry, hm, Ne.symm hm]
    | ksetRem _ m =>
      cases hIndex
      refine ⟨_, h, fun t => ?_⟩
      by_cases hm : m = n
      · simp [Action.entry, hm]
      · simp [Action.entry, hm, Ne.symm hm]
    | _ => cases hIndex

/-- The index after a program: it is a set again, and names a key as the last operation that
edits its entry says. -/
theorem index_after (hFold : foldOps ops .empty = .ok L)
    (hTrace : planTrace L.plans = (byKey ops).flatMap WriteOp.commands)
    (hKeyset : ∀ op ∈ ops, op.keyset = some s) (hRow : ∀ op ∈ ops, s ∉ op.names)
    (hRun : run (execStep now) (planTrace L.plans) ks = .ok ks') {members : Finset Bytes}
    (hRead : sets.read (ks s) = some members) :
    ∃ members', sets.read (ks' s) = some members' ∧ ∀ n, n ∈ members' ↔
      (entryAfter ops n).getD (decide (n ∈ members)) = true := by
  have hL := Ledger.From.foldOps hFold
  have hType : HoldsType .set (ks' s) := by
    refine run_invariant (I := fun ks => HoldsType .set (ks s)) ?_
      ((sets.read_iff _).mp ⟨_, hRead⟩) hRun
    intro x hx ks₁ ks₂ hType hExec
    obtain ⟨hSame, -⟩ | ⟨f, hEdit, -⟩ := hL.index_step (n := []) hKeyset hRow hx hExec
    · rwa [hSame]
    · exact onCollection_holdsType hEdit
  obtain ⟨members', hRead'⟩ := (sets.read_iff _).mpr hType
  refine ⟨members', hRead', fun n => ?_⟩
  have hStep : ∀ x ∈ planTrace L.plans, ∀ ks₁ ks₂, execStep now x ks₁ = .ok ks₂ →
      holdsSub (ks₂ s) n = (x.2.entry n).getD (holdsSub (ks₁ s) n) := by
    intro x hx ks₁ ks₂ hExec
    obtain ⟨hSame, hEntry⟩ | ⟨f, hEdit, hf⟩ := hL.index_step (n := n) hKeyset hRow hx hExec
    · rw [hSame, hEntry, Option.getD_none]
    · obtain ⟨t, ht, rfl⟩ := onCollection_ok.mp hEdit
      rw [Function.update_self, Bool.eq_iff_iff, holdsSub_of_sets (sets.read_write _), hf t]
      rw [show holdsSub (ks₁ s) n = decide (n ∈ t) from
        Bool.eq_iff_iff.mpr (by rw [holdsSub_of_sets ht, decide_eq_true_iff])]
  have hLast := run_lastWrite (g := fun ks : Keyspace => holdsSub (ks s) n) hStep hRun
  have hEntry : lastWrite (fun x => x.2.entry n) (planTrace L.plans) = entryAfter ops n := by
    rw [hTrace, lastWrite_flatMap]
    exact lastWrite_congr fun o ho =>
      WriteOp.lists_of_commands (hKeyset o ((mem_byKey hFold).mp ho))
  rw [← holdsSub_of_sets hRead', hLast, hEntry]
  rw [show holdsSub (ks s) n = decide (n ∈ members) from
    Bool.eq_iff_iff.mpr (by rw [holdsSub_of_sets hRead, decide_eq_true_iff])]

end Index

section Exact

variable {now : Nat} {ops : List WriteOp} {L : Ledger} {ks ks' : Keyspace} {s n : Bytes}
  {mine : Bytes → Prop}

theorem entryAfter_of_unnamed (hFold : foldOps ops .empty = .ok L)
    (hn : ∀ op ∈ ops, n ∉ op.names) : entryAfter ops n = none :=
  lastWrite_eq_none.mpr fun op hOp => if_pos (hn op ((mem_byKey hFold).mp hOp))

/-- A key the transaction names without editing its entry was there before it. -/
theorem present_of_entryAfter (hFold : foldOps ops .empty = .ok L) (hPass : L.Passes ks)
    (hNamed : ∃ op ∈ ops, n ∈ op.names) (hNone : entryAfter ops n = none) : (ks n).isSome := by
  obtain ⟨op, hFind⟩ : ∃ op, ops.find? (fun op => decide (n ∈ op.names)) = some op := by
    rw [← Option.isSome_iff_exists, List.find?_isSome]
    simpa using hNamed
  obtain ⟨hn, pre, post, hSplit, hPre⟩ := List.find?_eq_some_iff_append.mp hFind
  rw [decide_eq_true_iff] at hn
  have hOp : op ∈ ops := by simp [hSplit]
  have hLists : op.lists n = none := lastWrite_eq_none.mp hNone op ((mem_byKey hFold).mpr hOp)
  rw [WriteOp.lists, if_neg (not_not.mpr hn)] at hLists
  split_ifs at hLists with hGone hEnters
  obtain rfl : n = op.key := not_not.mp fun h => hGone (.inl h)
  refine (firstTouch_of_split hFold hPass hSplit fun o ho => ?_).2 fun h => hEnters h.symm
  simpa using hPre o ho

variable [Doubles]

/-- The operation is the last about the key in the order of the program, and finds `e` under
the name that its row has then. -/
def LastAbout (now : Nat) (ks : Keyspace) (ops : List WriteOp) (n : Bytes) (op : WriteOp)
    (e : Option Value) : Prop :=
  ∃ pre post cur, byKey ops = pre ++ op :: post ∧ n ∈ op.names ∧ (∀ o ∈ post, n ∉ o.names) ∧
    execOps now pre ks = .ok cur ∧ e = cur op.source

theorem exists_lastAbout (hFold : foldOps ops .empty = .ok L)
    (hTrace : planTrace L.plans = (byKey ops).flatMap WriteOp.commands)
    (hRun : run (execStep now) (planTrace L.plans) ks = .ok ks')
    (hNamed : ∃ op ∈ ops, n ∈ op.names) : ∃ op e, LastAbout now ks ops n op e := by
  obtain ⟨op', hOp', hn'⟩ := hNamed
  obtain ⟨pre, op, post, hSplit, hn, hPost⟩ :=
    exists_last (p := (n ∈ ·.names)) ⟨op', (mem_byKey hFold).mpr hOp', hn'⟩
  rw [hTrace, ← execOps_ok, hSplit] at hRun
  obtain ⟨cur, hPre, -⟩ := run_append_ok.mp hRun
  exact ⟨op, _, pre, post, cur, hSplit, hn, hPost, hPre, rfl⟩

theorem LastAbout.mem (hFold : foldOps ops .empty = .ok L) {op : WriteOp} {e : Option Value}
    (h : LastAbout now ks ops n op e) : op ∈ ops ∧ n ∈ op.names := by
  obtain ⟨pre, post, cur, hSplit, hn, -⟩ := h
  exact ⟨(mem_byKey hFold).mp (by simp [hSplit]), hn⟩

section Table

variable {t : TableType} {packed : Bool} {keyset : Option Bytes} {count : Nat}

omit [Doubles] in
theorem OfTable.planTrace_byKey (hTable : ∀ op ∈ ops, OfTable t packed keyset op)
    (hFold : foldOps ops .empty = .ok L) :
    planTrace L.plans = (byKey ops).flatMap WriteOp.commands :=
  ValkeyFdw.planTrace_byKey hFold (along_zsetAgrees fun op hOp o ho _ =>
    (hTable o ho).type.trans (hTable op hOp).type.symm)

/-- What the last operation about a key leaves there. It finds and leaves a value of its own
type. -/
theorem LastAbout.left (hTable : ∀ op ∈ ops, OfTable t packed keyset op)
    (hNames : ∀ op ∈ ops, ∀ n ∈ op.names, keyset ≠ some n)
    (hIndex : ∀ s, keyset = some s → HoldsType .set (ks s)) (hFold : foldOps ops .empty = .ok L)
    (hOk : runProgram now L.plans ks = (.ok count, ks')) {op : WriteOp} {e : Option Value}
    (h : LastAbout now ks ops n op e) :
    HoldsType op.tabletype.valueType e ∧ HoldsType op.tabletype.valueType (ks' n) ∧
      ks' n = if n = op.key then op.leaves now e else none := by
  obtain ⟨hOp, hn⟩ := h.mem hFold
  obtain ⟨pre, post, cur, hSplit, -, hPost, hPre, rfl⟩ := h
  obtain ⟨-, hPasses, hRun⟩ := runProgram_ok.mp hOk
  have hOps : ∀ o ∈ pre ++ op :: post, o ∈ ops := fun o ho =>
    (mem_byKey hFold).mp (hSplit ▸ ho)
  have hTrace := OfTable.planTrace_byKey hTable hFold
  have hTypes := OfTable.oneType hTable hNames
  have hStart := hTypes.typed_start hFold hPasses fun o ho s hs => by
    have hKeep : s ∈ o.keyset.toList := by
      unfold WriteOp.indexes at hs
      split_ifs at hs
      · exact hs
      · cases hs
    rw [Option.mem_toList, (hTable o ho).index] at hKeep
    exact hIndex s hKeep
  -- The types of the names are kept up to the operation, and to the end.
  have hTyped : ∀ {l ks₁}, (∀ x ∈ l, x ∈ planTrace L.plans) →
      run (execStep now) l ks = .ok ks₁ → Typed ops ks₁ := fun hl hRun =>
    run_invariant (I := Typed ops)
      (fun x hx _ _ hTyped h => hTypes.typed_step (.foldOps hFold) (hl x hx) hTyped h) hStart hRun
  have hName : ∀ {o ks₁}, o ∈ ops → Typed ops ks₁ → ∀ n ∈ o.names,
      HoldsType o.tabletype.valueType (ks₁ n) := fun ho hTyped n hn =>
    hTyped _ ho _ (WriteOp.mem_uses_of_names hn)
  have hEnd := hName hOp (hTyped (fun _ hx => hx) hRun) n hn
  rw [hTrace, ← execOps_ok, hSplit, execOps, run_append_ok] at hRun
  obtain ⟨cur', hPre', hRest⟩ := hRun
  obtain rfl : cur = cur' := Except.ok.inj (hPre.symm.trans hPre')
  obtain ⟨after, hExec, hTail⟩ := run_cons_ok.mp hRest
  have hType := hName hOp (hTyped (fun x hx => by
    rw [hTrace, hSplit, List.flatMap_append]
    exact List.mem_append_left _ hx) (execOps_ok.mp hPre)) _ (hTable op hOp).oldkey_mem_names
  refine ⟨hType, hEnd, ?_⟩
  have hAfter : ks' n = after n := execOps_frame hTail hPost fun o ho => by
    rw [(hTable o (hOps o (by simp [ho]))).index]
    exact hNames op hOp n hn
  rw [hAfter]
  exact WriteOp.exec_leaves (hTable op hOp).toBuffered
    (fun n hn => (hTable op hOp).index.symm ▸ hNames op hOp n hn) hType hExec hn

/-- The index of a table stays exact through a program that answers OK exactly when
the last operation about a key leaves nothing there just where the key was last taken
out of the index: by its own deletion, or under the old name of a rename. -/
theorem keyset_exact_iff (hTable : ∀ op ∈ ops, OfTable t packed (some s) op)
    (hMine : ∀ op ∈ ops, ∀ n ∈ op.names, mine n) (hRow : ¬mine s) (hExact : ExactIndex s mine ks)
    (hFold : foldOps ops .empty = .ok L) (hOk : runProgram now L.plans ks = (.ok count, ks')) :
    ExactIndex s mine ks' ↔ ∀ n op e, LastAbout now ks ops n op e →
      (n ≠ op.key ∨ op.Empties e ↔ entryAfter ops n = some false) := by
  obtain ⟨-, hPasses, hRun⟩ := runProgram_ok.mp hOk
  have hPass : L.Passes ks := Ledger.passes_iff.mpr hPasses
  have hKeyset : ∀ op ∈ ops, op.keyset = some s := fun op hOp => (hTable op hOp).index
  have hNames : ∀ op ∈ ops, s ∉ op.names := fun op hOp hs => hRow (hMine op hOp s hs)
  obtain ⟨members, hRead, hBefore⟩ := hExact
  have hTrace := OfTable.planTrace_byKey hTable hFold
  obtain ⟨members', hRead', hAfter⟩ := index_after hFold hTrace hKeyset hNames hRun hRead
  have hLeft : ∀ {n op e}, LastAbout now ks ops n op e →
      (ks' n = none ↔ n ≠ op.key ∨ op.Empties e) := by
    intro n op e hLast
    obtain ⟨hType, -, hAt⟩ := hLast.left hTable
      (fun op hOp n hn h => hNames op hOp (Option.some.inj h ▸ hn))
      (fun s' hs => Option.some.inj hs ▸ (sets.read_iff _).mp ⟨_, hRead⟩) hFold hOk
    rw [hAt]
    by_cases hKey : n = op.key
    · simp [hKey, WriteOp.leaves_eq_none (hTable op (hLast.mem hFold).1).supported hType]
    · simp [hKey]
  have hNamed : ∀ {n}, (∃ op ∈ ops, n ∈ op.names) →
      mine n ∧ (n ∈ members' ↔ entryAfter ops n ≠ some false) := by
    rintro n ⟨op, hOp, hn⟩
    refine ⟨hMine op hOp n hn, ?_⟩
    rw [hAfter]
    cases hLast : entryAfter ops n with
    | some b => cases b <;> simp
    | none =>
      have hPresent := present_of_entryAfter hFold hPass ⟨op, hOp, hn⟩ hLast
      simp [(hBefore n).mpr ⟨hMine op hOp n hn, hPresent⟩]
  constructor
  · rintro ⟨members'', hRead'', hExact⟩ n op e hLast
    obtain rfl : members' = members'' := Option.some.inj (hRead'.symm.trans hRead'')
    obtain ⟨hm, hEntry⟩ := hNamed ⟨op, hLast.mem hFold⟩
    rw [hExact, Option.isSome_iff_ne_none] at hEntry
    rw [← hLeft hLast]
    tauto
  · intro hCond
    refine ⟨members', hRead', fun n => ?_⟩
    by_cases hn : ∃ op ∈ ops, n ∈ op.names
    · obtain ⟨op, e, hLast⟩ := exists_lastAbout hFold hTrace hRun hn
      obtain ⟨hm, hEntry⟩ := hNamed hn
      rw [hEntry, ne_eq, ← hCond n op e hLast, ← hLeft hLast, Option.isSome_iff_ne_none]
      exact (and_iff_right hm).symm
    · have hUnnamed : ∀ op ∈ ops, n ∉ op.names := fun op hOp h => hn ⟨op, hOp, h⟩
      rw [hAfter, entryAfter_of_unnamed hFold hUnnamed, Option.getD_none, decide_eq_true_iff,
        hBefore]
      by_cases hs : n = s
      · subst hs
        exact iff_of_false (fun h => hRow h.1) fun h => hRow h.1
      · rw [key_unchanged (.foldOps hFold) hRun (fun op hOp h => ?_) hUnnamed]
        rw [hKeyset op hOp] at h
        exact hs (Option.some.inj h).symm

end Table

end Exact

theorem LastAbout.singleton [Doubles] {now : Nat} {ks : Keyspace} {op o : WriteOp} {n : Bytes}
    {e : Option Value} (hKey : byKey [op] = [op]) (h : LastAbout now ks [op] n o e) :
    o = op ∧ n ∈ op.names ∧ e = ks op.source := by
  obtain ⟨pre, post, cur, hSplit, hn, -, hPre, rfl⟩ := h
  rw [hKey] at hSplit
  rcases List.singleton_eq_append_iff.mp hSplit with ⟨rfl, h⟩ | ⟨-, h⟩
  · cases h
    cases hPre
    exact ⟨rfl, hn, rfl⟩
  · cases h

/-- The member of a set row that is deleted, with a keyset `s`. -/
def deleteMember (m : Bytes) : WriteOp :=
  { kind := .delete, relid := 1, tabletype := .set, key := [0x6b], member := some m,
    keyset := some [0x73] }

/-- The set `k` with the given members, and the keyset that names it. -/
def indexedSet (members : {t : Finset Bytes // t ≠ ∅}) : Keyspace :=
  Function.update (Function.update (fun _ => none) [0x6b] (some (.set members)))
    [0x73] (some (.set ⟨{[0x6b]}, by decide⟩))

theorem exactIndex_indexedSet (members : {t : Finset Bytes // t ≠ ∅}) :
    ExactIndex [0x73] (· = [0x6b]) (indexedSet members) := by
  refine ⟨{[0x6b]}, rfl, fun k => ?_⟩
  rw [Finset.mem_singleton]
  constructor
  · rintro rfl
    exact ⟨rfl, rfl⟩
  · exact And.left

/-- One of two members goes, and the index stays exact. -/
theorem keyset_exact_iff_twoMembers : letI := integerScores
    ∃ L ks', foldOps [deleteMember [0x61]] .empty = .ok L ∧
      runProgram 0 L.plans (indexedSet ⟨{[0x61], [0x62]}, by decide⟩) = (.ok 1, ks') ∧
      ExactIndex [0x73] (· = [0x6b]) ks' := by
  let _ := integerScores
  have hTable : ∀ op ∈ [deleteMember [0x61]], OfTable .set false (some [0x73]) op := by decide
  obtain ⟨L, ks', hFold, hOk⟩ : ∃ L ks', foldOps [deleteMember [0x61]] .empty = .ok L ∧
      runProgram 0 L.plans (indexedSet ⟨{[0x61], [0x62]}, by decide⟩) = (.ok 1, ks') :=
    ⟨_, _, rfl, rfl⟩
  refine ⟨L, ks', hFold, hOk, (keyset_exact_iff hTable (by decide) (by decide)
    (exactIndex_indexedSet _) hFold hOk).mpr ?_⟩
  intro n op e hLast
  obtain ⟨rfl, hn, rfl⟩ := hLast.singleton rfl
  obtain rfl : n = [0x6b] := List.mem_singleton.mp hn
  have hOther : ({[0x61], [0x62]} : Finset Bytes) ≠ {[0x61]} := by decide
  exact iff_of_false (fun h => h.elim (· rfl) fun h => hOther h.2) (by decide)

/-- The last member goes, and with it the key, but the index still names it. -/
theorem last_member_leaves_entry : letI := integerScores
    ∃ L ks', foldOps [deleteMember [0x61]] .empty = .ok L ∧
      ExactIndex [0x73] (· = [0x6b]) (indexedSet ⟨{[0x61]}, by decide⟩) ∧
      runProgram 0 L.plans (indexedSet ⟨{[0x61]}, by decide⟩) = (.ok 1, ks') ∧
      ks' [0x6b] = none ∧ sets.read (ks' [0x73]) = some {[0x6b]} ∧
      ¬ExactIndex [0x73] (· = [0x6b]) ks' := by
  refine ⟨_, _, rfl, exactIndex_indexedSet _, rfl, rfl, rfl, ?_⟩
  rintro ⟨members, hRead, hExact⟩
  cases hRead
  obtain ⟨-, hSome⟩ := (hExact [0x6b]).mp (by decide)
  cases hSome

end ValkeyFdw
