import ValkeyFdw.Safety.Rows

/-!
# The fields and members of a key

What a key holds under the name of a field or member is overwritten or left
alone by every action on the key. An UPDATE therefore leaves the last value its
own actions write, and otherwise the value the row had under its old key
(`exec_subValue`). For the rows of one statement the same holds as long as the
names of a renamed row are no other row's (`execOps_subValue`).
-/

namespace ValkeyFdw

open Server Trace

/-! ## Actions -/

/-- What an action on a key writes under the name `x`: a value, or nothing. -/
def Action.writes [Doubles] (x : Bytes) : Action → Option (Option Bytes)
  | .hset f v => if x = f then some (some v) else none
  | .hdel f => if x = f then some none else none
  | .sadd m => if x = m then some (some []) else none
  | .srem m => if x = m then some none else none
  | .zadd score m => if x = m then some (Doubles.canon score) else none
  | .zrem m => if x = m then some none else none
  | .del => some none
  | _ => none

/-- The actions that edit the fields or members of their plan's own key. -/
def Action.IsEdit : Action → Prop
  | .hset .. | .hdel _ | .sadd _ | .srem _ | .zadd .. | .zrem _ | .del | .hpersist _ => True
  | .hpexpire _ ms => ms ≠ 0
  | _ => False

section Actions

variable {now : Nat} {k x : Bytes} {ks ks' : Keyspace}

variable {w : Option (Option Bytes)}

theorem subValue_hashes {f : Fields → Fields} (h : onCollection hashes k f ks = .ok ks')
    (hf : ∀ t : Fields, ((f t).lookup x).map HField.data = w.getD ((t.lookup x).map HField.data)) :
    subValue (ks' k) x = w.getD (subValue (ks k) x) := by
  obtain ⟨t, ht, rfl⟩ := onCollection_ok.mp h
  rw [Function.update_self, subValue_of_hashes (hashes.read_write _), subValue_of_hashes ht, hf]

theorem subValue_sets {f : Finset Bytes → Finset Bytes} (h : onCollection sets k f ks = .ok ks')
    (hf : ∀ t, (if x ∈ f t then some [] else none) = w.getD (if x ∈ t then some [] else none)) :
    subValue (ks' k) x = w.getD (subValue (ks k) x) := by
  obtain ⟨t, ht, rfl⟩ := onCollection_ok.mp h
  rw [Function.update_self, subValue_of_sets (sets.read_write _), subValue_of_sets ht, hf]

theorem subValue_zsets {f : Scores → Scores} (h : onCollection zsets k f ks = .ok ks')
    (hf : ∀ t : Scores, (f t).lookup x = w.getD (t.lookup x)) :
    subValue (ks' k) x = w.getD (subValue (ks k) x) := by
  obtain ⟨t, ht, rfl⟩ := onCollection_ok.mp h
  rw [Function.update_self, subValue_of_zsets (zsets.read_write _), subValue_of_zsets ht, hf]

variable [Doubles]

/-- An action that edits its key overwrites a name or leaves it alone. -/
theorem Action.exec_subValue {a : Action} (hEdit : a.IsEdit) (h : a.exec now k ks = .ok ks') :
    subValue (ks' k) x = (a.writes x).getD (subValue (ks k) x) := by
  cases a with
  | hset f v =>
    refine subValue_hashes h fun t => ?_
    by_cases hx : x = f
    · subst hx
      simp [writes, Finmap.lookup_insert]
    · simp [writes, hx, Finmap.lookup_insert_of_ne _ hx]
  | hdel f =>
    refine subValue_hashes h fun t => ?_
    by_cases hx : x = f
    · subst hx
      simp [writes, Finmap.lookup_erase]
    · simp [writes, hx, Finmap.lookup_erase_ne hx]
  | hpersist f =>
    refine subValue_hashes (w := none) h fun t => ?_
    unfold persistField
    split
    · rfl
    · rename_i y hy
      by_cases hx : x = f
      · subst hx
        simp [Finmap.lookup_insert, hy]
      · simp [Finmap.lookup_insert_of_ne _ hx]
  | hpexpire f ms =>
    refine subValue_hashes (w := none) (hpexpire_ok.mp h).2 fun t => ?_
    unfold expireField
    split
    · rfl
    · rename_i y hy
      rw [if_neg hEdit]
      by_cases hx : x = f
      · subst hx
        simp [Finmap.lookup_insert, hy]
      · simp [Finmap.lookup_insert_of_ne _ hx]
  | sadd m =>
    refine subValue_sets h fun t => ?_
    by_cases hx : x = m <;> simp [writes, hx]
  | srem m =>
    refine subValue_sets h fun t => ?_
    by_cases hx : x = m <;> simp [writes, hx]
  | zadd score m =>
    obtain ⟨y, hy, h⟩ := zadd_ok.mp h
    refine subValue_zsets h fun t => ?_
    by_cases hx : x = m
    · subst hx
      simp [writes, Finmap.lookup_insert, hy]
    · simp [writes, hx, Finmap.lookup_insert_of_ne _ hx]
  | zrem m =>
    refine subValue_zsets h fun t => ?_
    by_cases hx : x = m
    · subst hx
      simp [writes, Finmap.lookup_erase]
    · simp [writes, hx, Finmap.lookup_erase_ne hx]
  | del =>
    have hNone : ks' k = none := by
      obtain ⟨e, he, rfl⟩ := Cell.updateAt_ok (u := fun _ => .ok none) |>.mp h
      cases he
      simp
    simp [hNone, writes, subValue]
  | set | rpush | lrem1 | rename | ksetAdd | ksetRem => exact hEdit.elim

theorem run_edits_subValue {as : List Action} (hEdits : ∀ a ∈ as, a.IsEdit)
    (hRun : run (execStep now) (as.map fun a => (k, a)) ks = .ok ks') :
    subValue (ks' k) x = (lastWrite (Action.writes x) as).getD (subValue (ks k) x) := by
  have hStep : ∀ y ∈ as.map fun a => (k, a), ∀ s t, execStep now y s = .ok t →
      subValue (t k) x = (y.2.writes x).getD (subValue (s k) x) := by
    intro y hy s t hExec
    obtain ⟨a, ha, rfl⟩ := List.mem_map.mp hy
    exact Action.exec_subValue (hEdits a ha) hExec
  rw [run_lastWrite (g := fun ks : Keyspace => subValue (ks k) x) hStep hRun, lastWrite_map]

end Actions

/-! ## Operations -/

/-- An UPDATE of a hash, a set or a sorted set as rendering leaves it: no field expires at once. -/
structure WriteOp.IsUpdate (op : WriteOp) : Prop where
  kind : op.kind = .update
  type : op.tabletype = .hash ∨ op.tabletype = .set ∨ op.tabletype = .zset
  ttls : ∀ t ∈ op.ttls, t.ms ≠ some 0

/-- The key an UPDATE found its row under. -/
def WriteOp.source (op : WriteOp) : Bytes := op.oldkey.getD op.key

/-- What the operation's own write leaves under the name `x` of its key. -/
def WriteOp.writes [Doubles] (op : WriteOp) (x : Bytes) : Option (Option Bytes) :=
  lastWrite (Action.writes x) (op.writeActions (op.tabletype = .zset))

theorem packPairs_isEdit {packed : List Bytes} : ∀ a ∈ packPairs packed, a.IsEdit := by
  induction packed using packPairs.induct with
  | case1 f v rest ih => simpa [packPairs, Action.IsEdit] using ih
  | case2 packed h => simp [packPairs]

variable {op : WriteOp} {ops : List WriteOp}

theorem memberActions_isEdit {z : Bool} : ∀ a ∈ op.memberActions z, a.IsEdit := by
  have hRem : ∀ m, (remMember z m).IsEdit := by cases z <;> simp [remMember, Action.IsEdit]
  have hAdd : ∀ m, (addMember z op m).IsEdit := by cases z <;> simp [addMember, Action.IsEdit]
  unfold WriteOp.memberActions
  cases op.member with
  | none => simp
  | some m =>
    dsimp only
    split_ifs <;> simp [hRem, hAdd]

theorem hashActions_isEdit (hTtls : ∀ t ∈ op.ttls, t.ms ≠ some 0) :
    ∀ a ∈ op.fields.map WriteOp.fieldAction ++ op.ttls.map ttlAction, a.IsEdit := by
  intro a ha
  rcases List.mem_append.mp ha with ha | ha
  · obtain ⟨f, -, rfl⟩ := List.mem_map.mp ha
    unfold WriteOp.fieldAction
    split <;> trivial
  · obtain ⟨t, ht, rfl⟩ := List.mem_map.mp ha
    unfold ttlAction
    split
    · trivial
    · rename_i ms hms
      exact fun hZero => hTtls t ht (by rw [hms, hZero])

theorem WriteOp.IsUpdate.isEdit (h : op.IsUpdate) :
    ∀ a ∈ op.writeActions (op.tabletype = .zset), a.IsEdit := by
  intro a ha
  have hDel : op.deletesKey = false := by simp [WriteOp.deletesKey, h.kind]
  simp only [WriteOp.writeActions, hDel, h.kind, Bool.false_eq_true, if_false, reduceCtorEq,
    List.append_nil] at ha
  split at ha
  · rcases List.mem_cons.mp ha with rfl | ha
    · trivial
    · unfold WriteOp.packedActions at ha
      rcases h.type with hType | hType | hType <;> rw [hType] at ha
      · exact packPairs_isEdit a ha
      · obtain ⟨m, -, rfl⟩ := List.mem_map.mp ha
        trivial
      · cases ha
  · unfold WriteOp.shapeActions at ha
    rcases h.type with hType | hType | hType <;> rw [hType] at ha
    · exact hashActions_isEdit h.ttls a ha
    · exact memberActions_isEdit a ha
    · exact memberActions_isEdit a ha

theorem Action.IsEdit.cells {a : Action} (h : a.IsEdit) (k : Bytes) : a.cells k = [k] := by
  cases a <;> first | rfl | exact h.elim

section Exec

variable [Doubles] {now : Nat} {op : WriteOp} {ks ks' : Keyspace} {x : Bytes}

/-- A rename moves the key whole, and the index entry with it. -/
theorem exec_renameActions (hKind : op.kind = .update)
    (hIndex : ∀ n ∈ op.names, op.keyset ≠ some n)
    (hRun : run (execStep now) (op.renameActions.map fun a => (op.key, a)) ks = .ok ks') :
    ks' op.key = ks op.source ∧ (op.isRename = true → ks' op.source = none) := by
  by_cases hRen : op.isRename = true
  · obtain ⟨-, old, hOld, hne⟩ := WriteOp.isRename_iff.mp hRen
    simp only [WriteOp.renameActions, hOld, hRen, if_true, List.map_cons] at hRun
    obtain ⟨ks₁, hMove, hRest⟩ := run_cons_ok.mp hRun
    obtain ⟨v, hv, rfl⟩ := rename_ok.mp hMove
    have hFrame : ∀ n ∈ op.names, ks' n =
        Function.update (Function.update ks old none) op.key (some v) n := by
      intro n hn
      refine run_actions_frame (fun a ha => ?_) hRest
      rcases List.mem_append.mp ha with ha | ha <;> exact keysetActions_cells ha (hIndex n hn)
    have hSource : op.source = old := by simp [WriteOp.source, hOld]
    rw [hSource]
    refine ⟨?_, fun _ => ?_⟩
    · rw [hFrame op.key List.mem_cons_self, Function.update_self, hv]
    · rw [hFrame old (by simp [WriteOp.names, hRen, hOld]), Function.update_of_ne hne,
        Function.update_self]
  · have hNot : op.isRename = false := by simpa using hRen
    rw [WriteOp.renameActions_of_not hNot] at hRun
    cases hRun
    exact ⟨by rw [WriteOp.source, WriteOp.oldkey_getD hKind hNot], fun h => absurd h hRen⟩

theorem WriteOp.exec_split (hKind : op.kind = .update)
    (hIndex : ∀ n ∈ op.names, op.keyset ≠ some n) (hExec : op.exec now ks = .ok ks') :
    ∃ mid, mid op.key = ks op.source ∧ (op.isRename = true → mid op.source = none) ∧
      run (execStep now) ((op.writeActions (op.tabletype = .zset)).map fun a => (op.key, a)) mid =
        .ok ks' := by
  unfold WriteOp.exec WriteOp.commands WriteOp.actions at hExec
  rw [List.map_append] at hExec
  obtain ⟨mid, hRename, hWrite⟩ := run_append_ok.mp hExec
  obtain ⟨hMoved, hGone⟩ := exec_renameActions hKind hIndex hRename
  exact ⟨mid, hMoved, hGone, hWrite⟩

theorem WriteOp.IsUpdate.exec_subValue (h : op.IsUpdate)
    (hIndex : ∀ n ∈ op.names, op.keyset ≠ some n) (hExec : op.exec now ks = .ok ks') :
    subValue (ks' op.key) x = (op.writes x).getD (subValue (ks op.source) x) := by
  obtain ⟨mid, hMoved, -, hWrite⟩ := WriteOp.exec_split h.kind hIndex hExec
  rw [run_edits_subValue h.isEdit hWrite, hMoved]
  rfl

theorem WriteOp.IsUpdate.exec_source (h : op.IsUpdate)
    (hIndex : ∀ n ∈ op.names, op.keyset ≠ some n) (hRen : op.isRename = true)
    (hExec : op.exec now ks = .ok ks') : ks' op.source = none := by
  obtain ⟨mid, -, hGone, hWrite⟩ := WriteOp.exec_split h.kind hIndex hExec
  obtain ⟨-, old, hOld, hne⟩ := WriteOp.isRename_iff.mp hRen
  have hSource : op.source = old := by simp [WriteOp.source, hOld]
  rw [← hGone hRen]
  refine run_actions_frame (fun a ha => ?_) hWrite
  rw [(h.isEdit a ha).cells, List.mem_singleton, hSource]
  exact hne

end Exec

/-! ## Statements -/

/-- No name of a row is an index, and a row whose key changes may share a name with another
row only by taking one that an earlier row has given up. -/
structure Chained (ops : List WriteOp) : Prop where
  index : ∀ op ∈ ops, ∀ op' ∈ ops, ∀ n ∈ op'.names, op.keyset ≠ some n
  renames : ops.Pairwise fun op op' => op.isRename = true ∨ op'.isRename = true →
    ∀ n ∈ op.names, n ∈ op'.names → n ≠ op.key ∧ n ≠ op'.source

theorem Chained.tail (h : Chained (op :: ops)) :
    Chained ops where
  index o ho o' ho' := h.index o (List.mem_cons_of_mem op ho) o' (List.mem_cons_of_mem op ho')
  renames := h.renames.of_cons

/-- The rows of a statement do not get in each other's way: a row whose key
changes shares neither of its names with another row, and no name is an index. -/
structure Separate (ops : List WriteOp) : Prop where
  index : ∀ op ∈ ops, ∀ op' ∈ ops, ∀ n ∈ op'.names, op.keyset ≠ some n
  renames : ops.Pairwise fun op op' =>
    op.isRename = true ∨ op'.isRename = true → ∀ n ∈ op.names, n ∉ op'.names

theorem Separate.chained (h : Separate ops) : Chained ops where
  index := h.index
  renames := h.renames.imp fun hApart hRen n hn hn' => absurd hn' (hApart hRen n hn)

/-- What the statement's rows write under the name `x` of the key `k`. -/
def written [Doubles] (ops : List WriteOp) (k x : Bytes) : Option (Option Bytes) :=
  lastWrite (fun op : WriteOp => if op.key = k then op.writes x else none) ops

theorem WriteOp.IsUpdate.source_eq (h : op.IsUpdate) (hRen : op.isRename = false) :
    op.source = op.key :=
  WriteOp.oldkey_getD h.kind hRen

theorem WriteOp.IsUpdate.source_mem (h : op.IsUpdate) : op.source ∈ op.names := by
  by_cases hRen : op.isRename = true
  · obtain ⟨-, old, hOld, -⟩ := WriteOp.isRename_iff.mp hRen
    simp [WriteOp.source, WriteOp.names, hRen, hOld]
  · rw [h.source_eq (by simpa using hRen)]
    exact List.mem_cons_self

/-- Two rows that share a name the second does not take over both stay where they are. -/
theorem Chained.shared {op' : WriteOp} (h : Chained (op :: ops)) (hOp' : op' ∈ ops) {n : Bytes}
    (hn : n ∈ op.names) (hn' : n ∈ op'.names) (hOwn : n = op.key ∨ n = op'.source) :
    (op.isRename = false ∧ op'.isRename = false) ∧ op.key = op'.key := by
  have hNot : ¬(op.isRename = true ∨ op'.isRename = true) := fun hRen => by
    obtain ⟨hKey, hSource⟩ := (List.pairwise_cons.mp h.renames).1 op' hOp' hRen n hn hn'
    exact hOwn.elim hKey hSource
  rw [not_or, Bool.not_eq_true, Bool.not_eq_true] at hNot
  rw [WriteOp.names_of_not_rename hNot.1, List.mem_singleton] at hn
  rw [WriteOp.names_of_not_rename hNot.2, List.mem_singleton] at hn'
  exact ⟨hNot, hn.symm.trans hn'⟩

section Statement

variable [Doubles] {now : Nat} {ops : List WriteOp} {ks ks' : Keyspace} {k x : Bytes}

theorem execOps_frame (hExec : execOps now ops ks = .ok ks') (hNames : ∀ op ∈ ops, k ∉ op.names)
    (hIndex : ∀ op ∈ ops, op.keyset ≠ some k) : ks' k = ks k :=
  run_frame (g := fun ks : Keyspace => ks k)
    (fun op hOp _ _ h => WriteOp.exec_frame h (hNames op hOp) (hIndex op hOp)) hExec

/-- The rows of a statement leave what the last of them writes, and otherwise
what their key held under its old name. -/
theorem execOps_subValue (hOps : ∀ op ∈ ops, op.IsUpdate) (hChain : Chained ops)
    (hExec : execOps now ops ks = .ok ks') {op : WriteOp} (hOp : op ∈ ops) :
    subValue (ks' op.key) x = (written ops op.key x).getD (subValue (ks op.source) x) := by
  induction ops generalizing ks op with
  | nil => cases hOp
  | cons o ops ih =>
    obtain ⟨ks₁, hHead, hRest⟩ := run_cons_ok.mp hExec
    rw [List.forall_mem_cons] at hOps
    have hIndex : ∀ n ∈ o.names, o.keyset ≠ some n := hChain.index o (by simp) o (by simp)
    have hOwn := hOps.1.exec_subValue (x := x) hIndex hHead
    -- A later row of the same key decides; the head is what that row found.
    have hLater : ∀ {op : WriteOp}, op ∈ ops →
        subValue (ks' op.key) x = (written (o :: ops) op.key x).getD (subValue (ks op.source) x) := by
      intro op hOp
      rw [ih hOps.2 hChain.tail hRest hOp, written, written, lastWrite]
      by_cases hKey : o.key = op.key
      · obtain ⟨⟨hRen, hRen'⟩, -⟩ :=
          hChain.shared hOp (n := o.key) List.mem_cons_self (by simp [hKey, WriteOp.names]) (.inl rfl)
        rw [if_pos hKey, (hOps.2 op hOp).source_eq hRen', ← hKey, hOwn, hOps.1.source_eq hRen]
        cases lastWrite (fun op' : WriteOp => if op'.key = o.key then op'.writes x else none) ops <;>
          rfl
      · have hNames : op.source ∉ o.names := fun hn =>
          hKey (hChain.shared hOp hn (hOps.2 op hOp).source_mem (.inr rfl)).2
        have hSame : ks₁ op.source = ks op.source := by
          refine WriteOp.exec_frame hHead hNames ?_
          exact hChain.index o (by simp) op (by simp [hOp]) _ (hOps.2 op hOp).source_mem
        rw [if_neg hKey, Option.or_none, hSame]
    rcases List.mem_cons.mp hOp with rfl | hOp
    · by_cases hAgain : ∃ op' ∈ ops, op'.key = op.key
      · obtain ⟨op', hOp', hKey⟩ := hAgain
        obtain ⟨⟨hRen, hRen'⟩, -⟩ :=
          hChain.shared hOp' (n := op.key) List.mem_cons_self (by simp [hKey, WriteOp.names]) (.inl rfl)
        have hSource : op.source = op'.source := by
          rw [hOps.1.source_eq hRen, (hOps.2 op' hOp').source_eq hRen', hKey]
        rw [hSource, ← hKey]
        exact hLater hOp'
      · have hNone : written ops op.key x = none := by
          refine lastWrite_eq_none.mpr fun op' hOp' => if_neg fun hKey => hAgain ⟨op', hOp', hKey⟩
        have hSame : ks' op.key = ks₁ op.key := by
          refine execOps_frame hRest (fun op' hOp' hn => ?_) fun op' hOp' =>
            hChain.index op' (by simp [hOp']) op (by simp) _ List.mem_cons_self
          exact hAgain ⟨op', hOp', (hChain.shared hOp' List.mem_cons_self hn (.inl rfl)).2.symm⟩
        rw [hSame, hOwn, written, lastWrite, ← written, hNone, if_pos rfl, Option.none_or]
    · exact hLater hOp

theorem execOps_source (hOps : ∀ op ∈ ops, op.IsUpdate) (hSep : Separate ops)
    (hExec : execOps now ops ks = .ok ks') {op : WriteOp} (hOp : op ∈ ops)
    (hRen : op.isRename = true) : ks' op.source = none := by
  induction ops generalizing ks with
  | nil => cases hOp
  | cons o ops ih =>
    obtain ⟨ks₁, hHead, hRest⟩ := run_cons_ok.mp hExec
    rw [List.forall_mem_cons] at hOps
    rcases List.mem_cons.mp hOp with rfl | hOp
    · have hGone := hOps.1.exec_source (hSep.index op (by simp) op (by simp)) hRen hHead
      rw [← hGone]
      refine execOps_frame hRest (fun op' hOp' => ?_) fun op' hOp' =>
        hSep.index op' (by simp [hOp']) op (by simp) _ hOps.1.source_mem
      exact (List.pairwise_cons.mp hSep.renames).1 op' hOp' (.inl hRen) _ hOps.1.source_mem
    · refine ih hOps.2 ⟨fun o ho o' ho' => ?_, hSep.renames.of_cons⟩ hRest hOp
      exact hSep.index o (by simp [ho]) o' (by simp [ho'])

end Statement

end ValkeyFdw
