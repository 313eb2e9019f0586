import Mathlib.Data.List.TakeWhile
import ValkeyFdw.Ledger.Effect
import ValkeyFdw.Script.Program

/-!
# Where an operation's actions land in the program

The program takes the plans in first-touch order, so the actions of an
operation are inserted after the earlier actions of the same key and before
those of every key first touched later (`note_trace`).
-/

namespace ValkeyFdw

namespace Ledger

variable {L L' : Ledger}

/-- The actions recorded for a key so far. -/
def actionsOf (L : Ledger) (k : Bytes) : List Action := ((L.plan? k).map Plan.actions).getD []

/-- The keys first touched after a key. -/
def keysAfter (L : Ledger) (k : Bytes) : List Bytes := (L.keys.dropWhile (· ≠ k)).tail

theorem keysAfter_of_notMem {k : Bytes} (h : k ∉ L.keys) : L.keysAfter k = [] := by
  rw [keysAfter, List.dropWhile_eq_nil_iff.mpr, List.tail_nil]
  intro l hl
  simpa using fun he : l = k => h (he ▸ hl)

theorem keysAfter_split {k : Bytes} {as bs : List Bytes} (h : L.keys = as ++ k :: bs)
    (has : k ∉ as) : L.keysAfter k = bs := by
  rw [keysAfter, h, List.dropWhile_append_of_pos]
  · simp
  · intro l hl
    simpa using fun he : l = k => has (he ▸ hl)

theorem key_notMem_keysAfter (L : Ledger) (k : Bytes) : k ∉ L.keysAfter k := by
  by_cases hk : k ∈ L.keys
  · obtain ⟨as, bs, hSplit, has⟩ := List.eq_append_cons_of_mem hk
    have hNodup : L.keys.Nodup := L.nodup
    rw [hSplit, List.nodup_append] at hNodup
    rw [keysAfter_split hSplit has]
    exact (List.nodup_cons.mp hNodup.2.1).1
  · simp [keysAfter_of_notMem hk]

/-- The actions of some keys, key by key. -/
def traceOf (L : Ledger) (ks : List Bytes) : List (Bytes × Action) :=
  ks.flatMap fun k => (L.actionsOf k).map fun a => (k, a)

theorem traceOf_append (ks ls : List Bytes) :
    L.traceOf (ks ++ ls) = L.traceOf ks ++ L.traceOf ls := by
  simp [traceOf]

theorem traceOf_congr {ks : List Bytes} (h : ∀ k ∈ ks, L'.actionsOf k = L.actionsOf k) :
    L'.traceOf ks = L.traceOf ks := by
  unfold traceOf
  apply congrArg List.flatten
  apply List.map_congr_left
  intro k hk
  rw [h k hk]

theorem mem_traceOf {ks : List Bytes} {x : Bytes × Action} :
    x ∈ L.traceOf ks ↔ x.1 ∈ ks ∧ x.2 ∈ L.actionsOf x.1 := by
  obtain ⟨k, a⟩ := x
  simp only [traceOf, List.mem_flatMap, List.mem_map, Prod.mk.injEq]
  constructor
  · rintro ⟨_, hk, _, ha, rfl, rfl⟩
    exact ⟨hk, ha⟩
  · rintro ⟨hk, ha⟩
    exact ⟨k, hk, a, ha, rfl, rfl⟩

theorem planTrace_eq (L : Ledger) : planTrace L.plans = L.traceOf L.keys := by
  unfold planTrace traceOf keys
  rw [List.flatMap_map]
  apply congrArg List.flatten
  apply List.map_congr_left
  intro p hp
  simp [actionsOf, plan?_of_mem hp]

theorem entry_actions (L : Ledger) (k : Bytes) (ttype : TableType) :
    (L.entry k ttype).actions = L.actionsOf k := by
  unfold entry actionsOf
  cases L.plan? k <;> simp [Plan.fresh]

/-- Whether the fold treats the key of the operation as a sorted set: the type
the key was first touched with decides. -/
def isZset (L : Ledger) (op : WriteOp) : Bool := (L.entry op.key op.tabletype).ttype = .zset

end Ledger

namespace NoteStep

variable {op : WriteOp} {L L' : Ledger} {plan : Plan}

variable (h : NoteStep op L L' plan)

include h

theorem plan_extends :
    (L.entry op.key op.tabletype).Extends plan (op.actions (L.isZset op)) := by
  have hStart := L.startPlan_extends op
  have hWrite := foldWrite_extends h.write
  rw [hStart.ttype] at hWrite
  exact hStart.trans hWrite

theorem actionsOf_key :
    L'.actionsOf op.key = L.actionsOf op.key ++ op.actions (L.isZset op) := by
  rw [← L.entry_actions op.key op.tabletype, ← h.plan_extends.actions]
  simp [Ledger.actionsOf, h.plan_key]

theorem actionsOf_other {j : Bytes} (hj : j ≠ op.key) :
    L'.actionsOf j = L.actionsOf j := by
  by_cases hNames : j ∈ op.names
  · obtain ⟨hRen, hOld⟩ : op.isRename = true ∧ op.oldkey = some j := by
      simpa [WriteOp.names, hj] using hNames
    rw [← L.entry_actions j op.tabletype]
    simpa [Ledger.actionsOf, h.plan_old hRen hOld] using (L.sourcePlan_extends op j).actions
  · simp only [Ledger.actionsOf, h.plan_other hNames]

/-- The operation's actions are inserted before those of the keys first touched
after its own. -/
theorem trace :
    ∃ pre, planTrace L.plans = pre ++ L.traceOf (L.keysAfter op.key) ∧
      planTrace L'.plans = pre ++ (op.actions (L.isZset op)).map (fun a => (op.key, a)) ++
        L.traceOf (L.keysAfter op.key) := by
  have hSame : ∀ {ks : List Bytes}, op.key ∉ ks → L'.traceOf ks = L.traceOf ks := by
    intro ks hks
    exact Ledger.traceOf_congr fun k hk => h.actionsOf_other fun he => hks (he ▸ hk)
  have hFresh : ∀ {ks : List Bytes}, (∀ k ∈ ks, k ∉ L.keys) → L.traceOf ks = [] := by
    intro ks hks
    rw [List.eq_nil_iff_forall_not_mem]
    intro x hx
    obtain ⟨hk, ha⟩ := Ledger.mem_traceOf.mp hx
    rw [Ledger.actionsOf, Ledger.plan?_eq_none.mpr (hks _ hk)] at ha
    simp at ha
  rw [Ledger.planTrace_eq, Ledger.planTrace_eq, h.keys, Ledger.traceOf_append]
  by_cases hKey : op.key ∈ L.keys
  · obtain ⟨as, bs, hSplit, has⟩ := List.eq_append_cons_of_mem hKey
    have hAfter : L.keysAfter op.key = bs := Ledger.keysAfter_split hSplit has
    have hbs : op.key ∉ bs := hAfter ▸ L.key_notMem_keysAfter op.key
    have hExtra : L'.traceOf (op.names.filter (· ∉ L.keys)) = [] := by
      rw [hSame, hFresh]
      · simp
      · simp [hKey]
    refine ⟨L.traceOf as ++ (L.actionsOf op.key).map fun a => (op.key, a), ?_, ?_⟩
    · rw [hAfter, hSplit, Ledger.traceOf_append]
      simp [Ledger.traceOf]
    · have hMid : L'.traceOf (op.key :: bs) =
          (L.actionsOf op.key ++ op.actions (L.isZset op)).map (fun a => (op.key, a)) ++
            L.traceOf bs := by
        rw [← h.actionsOf_key, ← hSame hbs]
        simp [Ledger.traceOf]
      rw [hExtra, hAfter, hSplit, Ledger.traceOf_append, hSame has, hMid]
      simp
  · have hOwn : L.actionsOf op.key = [] := by
      simp [Ledger.actionsOf, Ledger.plan?_eq_none.mpr hKey]
    have hRest : L'.traceOf (op.names.tail.filter (· ∉ L.keys)) = [] := by
      rw [hSame fun hMem => op.key_notMem_names_tail (List.mem_of_mem_filter hMem), hFresh]
      simp
    refine ⟨L.traceOf L.keys, ?_, ?_⟩
    · rw [Ledger.keysAfter_of_notMem hKey]
      simp [Ledger.traceOf]
    · have hNames : op.names.filter (· ∉ L.keys) =
          [op.key] ++ op.names.tail.filter (· ∉ L.keys) := by
        simp [WriteOp.names, hKey]
      rw [hNames, Ledger.traceOf_append, hRest, hSame hKey, Ledger.keysAfter_of_notMem hKey]
      simp [Ledger.traceOf, h.actionsOf_key, hOwn]

theorem mem_keys {n : Bytes} (hn : n ∈ L.keys ∨ n ∈ op.names) :
    n ∈ L'.keys := by
  rw [h.keys, List.mem_append, List.mem_filter]
  by_cases hKeys : n ∈ L.keys
  · exact .inl hKeys
  · exact .inr ⟨hn.resolve_left hKeys, by simpa using hKeys⟩

theorem mem_actionsOf {k : Bytes} {a : Action} (ha : a ∈ L.actionsOf k) : a ∈ L'.actionsOf k := by
  by_cases hk : k = op.key
  · subst hk
    rw [h.actionsOf_key]
    exact List.mem_append_left _ ha
  · rwa [h.actionsOf_other hk]

end NoteStep

/-! ## Whole buffers -/

theorem foldOps_cons {op : WriteOp} {ops : List WriteOp} {L L' : Ledger} :
    foldOps (op :: ops) L = .ok L' ↔ ∃ L₁, note op L = .ok L₁ ∧ foldOps ops L₁ = .ok L' :=
  Trace.run_cons_ok

/-- Keys and actions stay in the ledger, and every operation adds its own. -/
structure Ledger.Covers (ops : List WriteOp) (L L' : Ledger) : Prop where
  keys : ∀ n ∈ L.keys, n ∈ L'.keys
  actions : ∀ k, ∀ a ∈ L.actionsOf k, a ∈ L'.actionsOf k
  names : ∀ op ∈ ops, ∀ n ∈ op.names, n ∈ L'.keys
  own : ∀ op ∈ ops, ∃ z, ∀ a ∈ op.actions z, a ∈ L'.actionsOf op.key

theorem foldOps_covers {ops : List WriteOp} {L L' : Ledger} (h : foldOps ops L = .ok L') :
    L.Covers ops L' := by
  induction ops generalizing L with
  | nil =>
    cases h
    exact ⟨fun _ h => h, fun _ _ h => h, by simp, by simp⟩
  | cons op ops ih =>
    obtain ⟨L₁, hNote, hRest⟩ := foldOps_cons.mp h
    obtain ⟨plan, hStep⟩ := note_spec hNote
    have hTail := ih hRest
    refine ⟨?_, ?_, ?_, ?_⟩
    · intro n hn
      exact hTail.keys n (hStep.mem_keys (.inl hn))
    · intro k a ha
      exact hTail.actions k a (hStep.mem_actionsOf ha)
    · rw [List.forall_mem_cons]
      exact ⟨fun n hn => hTail.keys n (hStep.mem_keys (.inr hn)), hTail.names⟩
    · rw [List.forall_mem_cons]
      refine ⟨⟨L.isZset op, fun a ha => hTail.actions _ a ?_⟩, hTail.own⟩
      rw [hStep.actionsOf_key]
      exact List.mem_append_right _ ha

/-- The ledger has a plan for the names of the operations, and for no others. -/
theorem foldOps_plan? {ops : List WriteOp} {L : Ledger} (h : foldOps ops .empty = .ok L)
    {k : Bytes} : L.plan? k = none ↔ ∀ op ∈ ops, k ∉ op.names := by
  constructor
  · intro hNone op hOp hk
    have hSome := Ledger.plan?_isSome.mpr ((foldOps_covers h).names op hOp k hk)
    simp [hNone] at hSome
  · intro hNames
    refine Trace.run_frame (g := fun L : Ledger => L.plan? k) (fun op hOp L L' hNote => ?_) h
    obtain ⟨plan, hStep⟩ := note_spec hNote
    exact hStep.plan_other (hNames op hOp)

end ValkeyFdw
