import ValkeyFdw.Ledger.Order

/-!
# Actions that can be taken in either order

An action of a plan concerns some keys: the plan's own, the source of a rename,
or the member of an index entry. Index entries also name the set that holds
them. Two actions commute when they concern different keys and neither writes a
key that is the other's index; two entries of one index are allowed
(`Apart.commute`).
-/

namespace ValkeyFdw

open Server Cell

/-- The keys an action of the plan of `k` concerns. -/
def Action.keyNames (k : Bytes) : Action → List Bytes
  | .rename oldkey => [oldkey, k]
  | .ksetAdd _ m | .ksetRem _ m => [m]
  | _ => [k]

/-- The index an action edits, if it is an index entry. -/
def Action.index : Action → List Bytes
  | .ksetAdd s _ | .ksetRem s _ => [s]
  | _ => []

/-- The actions concern different keys, and neither concerns the other's index. -/
structure Apart (x y : Bytes × Action) : Prop where
  keys : List.Disjoint (x.2.keyNames x.1) (y.2.keyNames y.1)
  left : List.Disjoint (x.2.keyNames x.1) y.2.index
  right : List.Disjoint x.2.index (y.2.keyNames y.1)

theorem apart_iff {x y : Bytes × Action} :
    Apart x y ↔ (∀ n ∈ x.2.keyNames x.1, n ∉ y.2.keyNames y.1 ∧ n ∉ y.2.index) ∧
      ∀ n ∈ x.2.index, n ∉ y.2.keyNames y.1 := by
  constructor
  · intro h
    exact ⟨fun n hn => ⟨h.keys hn, h.left hn⟩, fun n hn => h.right hn⟩
  · rintro ⟨h, h'⟩
    exact ⟨fun n hn => (h n hn).1, fun n hn => (h n hn).2, fun n hn => h' n hn⟩

instance (x y : Bytes × Action) : Decidable (Apart x y) := decidable_of_iff _ apart_iff.symm

/-- The names an action of the plan of `k` reads and changes. -/
def Action.cells (k : Bytes) : Action → List Bytes
  | .rename oldkey => [oldkey, k]
  | .ksetAdd s _ | .ksetRem s _ => [s]
  | _ => [k]

theorem Action.cells_of_index_nil {k : Bytes} {a : Action} (h : a.index = []) :
    a.cells k = a.keyNames k := by
  cases a <;> simp_all [index, cells, keyNames]

theorem Action.index_cases (k : Bytes) (a : Action) :
    a.index = [] ∨ ∃ s, a.index = [s] ∧ a.cells k = [s] := by
  cases a <;> simp [index, cells]

theorem index_edits_commute {s m m' : Bytes} (hne : m ≠ m') {c c' : Command}
    (hc : c = sadd s m ∨ c = srem s m) (hc' : c' = sadd s m' ∨ c' = srem s m') {ks ks' : Keyspace} :
    (c ks).bind c' = .ok ks' ↔ (c' ks).bind c = .ok ks' := by
  rcases hc with rfl | rfl <;> rcases hc' with rfl | rfl
  · exact sets_commute fun t => Finset.insert_comm _ _ _
  · exact sets_commute (g := fun t => t.erase m') fun t => (Finset.erase_insert_of_ne hne).symm
  · exact sets_commute fun t => Finset.erase_insert_of_ne hne.symm
  · exact sets_commute fun t => Finset.erase_right_comm

/-! ## The names of an operation's actions -/

/-- The action concerns only names of the operation, and edits only its index. -/
structure Action.Within (op : WriteOp) (a : Action) : Prop where
  keys : ∀ n ∈ a.keyNames op.key, n ∈ op.names
  index : ∀ s ∈ a.index, op.keyset = some s

theorem OpAction.within {op : WriteOp} {z : Bool} {a : Action} (h : OpAction op z a) :
    a.Within op := by
  have hOwn : op.key ∈ op.names := List.mem_cons_self
  cases h with
  | rename hRen hOld =>
    refine ⟨fun n hn => ?_, by simp [Action.index]⟩
    rcases List.mem_pair.mp hn with rfl | rfl
    · simp [WriteOp.names, hRen, hOld]
    · exact hOwn
  | ksetAdd hs hk _ => exact ⟨by simpa [Action.keyNames] using hk, by simpa [Action.index] using hs⟩
  | ksetRem hs hk _ => exact ⟨by simpa [Action.keyNames] using hk, by simpa [Action.index] using hs⟩
  | _ => exact ⟨by simpa [Action.keyNames] using hOwn, by simp [Action.index]⟩

/-! ## Commutation -/

variable [Doubles]

theorem Action.localTo (now : Nat) (k : Bytes) (a : Action) :
    LocalTo {n | n ∈ a.cells k} (a.exec now k) := by
  have hOne : {n | n ∈ [k]} = ({k} : Set Bytes) := by ext; simp
  cases a with
  | set v => exact hOne ▸ localTo_set k v
  | del => exact hOne ▸ localTo_del k
  | hset f v => exact hOne ▸ localTo_onCollection hashes k _
  | hdel f => exact hOne ▸ localTo_onCollection hashes k _
  | sadd m => exact hOne ▸ localTo_onCollection sets k _
  | srem m => exact hOne ▸ localTo_onCollection sets k _
  | zadd score m => exact hOne ▸ localTo_zadd k score m
  | zrem m => exact hOne ▸ localTo_onCollection zsets k _
  | rpush v => exact hOne ▸ localTo_onCollection lists k _
  | lrem1 v => exact hOne ▸ localTo_onCollection lists k _
  | rename oldkey =>
    have hTwo : {n | n ∈ [oldkey, k]} = ({oldkey, k} : Set Bytes) := by ext; simp
    exact hTwo ▸ localTo_rename oldkey k
  | ksetAdd s m =>
    have hSet : {n | n ∈ [s]} = ({s} : Set Bytes) := by ext; simp
    exact hSet ▸ localTo_onCollection sets s _
  | ksetRem s m =>
    have hSet : {n | n ∈ [s]} = ({s} : Set Bytes) := by ext; simp
    exact hSet ▸ localTo_onCollection sets s _
  | hpexpire f ms => exact hOne ▸ localTo_hpexpire now k f ms
  | hpersist f => exact hOne ▸ localTo_onCollection hashes k _

theorem commute_of_cells {now : Nat} {x y : Bytes × Action}
    (h : List.Disjoint (x.2.cells x.1) (y.2.cells y.1)) :
    Trace.Commute (execStep now) x y := by
  intro ks ks'
  rw [Trace.run_pair, Trace.run_pair]
  exact (Action.localTo now x.1 x.2).commute (Action.localTo now y.1 y.2)
    (Set.disjoint_left.mpr fun _ hx hy => h hx hy)

theorem Action.exec_index (now : Nat) (k : Bytes) {s : Bytes} {a : Action} (h : a.index = [s]) :
    ∃ m, a.keyNames k = [m] ∧ (a.exec now k = Server.sadd s m ∨ a.exec now k = Server.srem s m) := by
  cases a <;> simp_all [index, keyNames, exec]

theorem Apart.commute {now : Nat} {x y : Bytes × Action} (h : Apart x y) :
    Trace.Commute (execStep now) x y := by
  rcases x.2.index_cases x.1 with hx | ⟨s, hx, hxs⟩
  · apply commute_of_cells
    rw [Action.cells_of_index_nil hx]
    rcases y.2.index_cases y.1 with hy | ⟨t, hy, hyt⟩
    · rw [Action.cells_of_index_nil hy]
      exact h.keys
    · rw [hyt, ← hy]
      exact h.left
  · rcases y.2.index_cases y.1 with hy | ⟨t, hy, hyt⟩
    · apply commute_of_cells
      rw [Action.cells_of_index_nil hy, hxs, ← hx]
      exact h.right
    · by_cases hst : s = t
      · subst hst
        obtain ⟨m, hm, hExec⟩ := Action.exec_index now x.1 hx
        obtain ⟨m', hm', hExec'⟩ := Action.exec_index now y.1 hy
        have hne : m ≠ m' := by
          have hKeys := h.keys
          rw [hm, hm'] at hKeys
          simpa [eq_comm] using hKeys
        intro ks ks'
        rw [Trace.run_pair, Trace.run_pair]
        exact index_edits_commute hne hExec hExec'
      · apply commute_of_cells
        rw [hxs, hyt]
        simpa [eq_comm] using hst

end ValkeyFdw
