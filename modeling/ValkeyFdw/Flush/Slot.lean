import ValkeyFdw.Cluster.Slots
import ValkeyFdw.Ledger.Checks
import ValkeyFdw.Refine.Sequential
import ValkeyFdw.Script.Encode

/-!
# The slot of a write unit

On a cluster one script may touch one slot only. The flush walks the write buffer
before it takes a connection, refuses a unit whose keys lie in several slots, and
sends the program to the node of the slot it found. What the program declares is
read off the folded ledger instead, so the two have to see the same keys.

* `mem_declaredKeys_foldOps`: the keys declared for a buffer are those its
  operations touch;
* `flushClusterSlot_covers_iff`: when the slot that was found is the slot of all
  of them. The walk skips an empty key, which the program declares like any other.
-/

namespace ValkeyFdw

open Server

/-! ## The walk -/

/-- The refusal: the key that lies elsewhere, the first one seen, and their slots. -/
structure CrossSlot where
  key : Bytes
  thisSlot : Fin nslots
  firstkey : Bytes
  slot : Fin nslots
  what : String
deriving DecidableEq

/-- The first key that was seen, with its slot. -/
abbrev FirstSeen := Option (Bytes × Fin nslots)

/-- A key has the slot of those before it, or the unit is refused. -/
def flushSlotOf (key : Option Bytes) (what : String) (first : FirstSeen) :
    Except CrossSlot FirstSeen :=
  match key with
  | none => .ok first
  | some key =>
    if key = [] then .ok first
    else
      match first with
      | none => .ok (some (key, slot key))
      | some (firstkey, s) =>
        if slot key = s then .ok first else .error ⟨key, slot key, firstkey, s, what⟩

def flushSlotOp (op : WriteOp) (first : FirstSeen) : Except CrossSlot FirstSeen := do
  let first ← flushSlotOf (some op.key) "" first
  let first ← flushSlotOf op.oldkey " (the row is being renamed)" first
  flushSlotOf op.keyset " (the table's keyset index)" first

/-- The one slot a buffer writes, or none when it writes nothing. -/
def flushClusterSlot (ops : List WriteOp) : Except CrossSlot (Option (Fin nslots)) :=
  (Trace.run flushSlotOp ops none).map (·.map Prod.snd)

/-- The keys of an operation that the walk looks at. -/
def WriteOp.walked (op : WriteOp) : List Bytes :=
  op.key :: (op.oldkey.toList ++ op.keyset.toList)

/-- What the walk knows once it has looked at some keys. -/
structure FirstSeen.Knows (first : FirstSeen) (keys : List Bytes) : Prop where
  agree : ∀ key ∈ keys, key ≠ [] → first.map Prod.snd = some (slot key)
  seen : ∀ f s, first = some (f, s) → f ∈ keys ∧ f ≠ [] ∧ slot f = s

section Walk

variable {first first' : FirstSeen} {keys : List Bytes}

theorem flushSlotOf_knows {key : Option Bytes} {what : String}
    (h : flushSlotOf key what first = .ok first') (hKnows : first.Knows keys) :
    first'.Knows (keys ++ key.toList) := by
  unfold flushSlotOf at h
  cases key with
  | none =>
    cases h
    simpa using hKnows
  | some key =>
    rw [Option.toList_some]
    dsimp only at h
    have hSeen : ∀ f s, first = some (f, s) → f ∈ keys ++ [key] ∧ f ≠ [] ∧ slot f = s :=
      fun f s hf => ⟨List.mem_append_left _ (hKnows.seen f s hf).1, (hKnows.seen f s hf).2⟩
    split at h
    · rename_i hEmpty
      cases h
      refine ⟨fun k hk hne => ?_, hSeen⟩
      rcases List.mem_append.mp hk with hk | hk
      · exact hKnows.agree k hk hne
      · exact absurd ((List.mem_singleton.mp hk).trans hEmpty) hne
    · rename_i hKey
      split at h
      · cases h
        refine ⟨fun k hk hne => ?_, fun f s hf => ?_⟩
        · rcases List.mem_append.mp hk with hk | hk
          · exact absurd (hKnows.agree k hk hne) nofun
          · rw [List.mem_singleton.mp hk]
            rfl
        · cases hf
          exact ⟨by simp, hKey, rfl⟩
      · split at h
        · rename_i hSlot
          cases h
          refine ⟨fun k hk hne => ?_, hSeen⟩
          rcases List.mem_append.mp hk with hk | hk
          · exact hKnows.agree k hk hne
          · rw [List.mem_singleton.mp hk, hSlot]
            rfl
        · cases h

theorem flushSlotOp_knows {op : WriteOp} (h : flushSlotOp op first = .ok first')
    (hKnows : first.Knows keys) : first'.Knows (keys ++ op.walked) := by
  obtain ⟨first₁, h₁, h⟩ := bind_ok.mp h
  obtain ⟨first₂, h₂, h⟩ := bind_ok.mp h
  have hAll := flushSlotOf_knows h (flushSlotOf_knows h₂ (flushSlotOf_knows h₁ hKnows))
  simpa [WriteOp.walked] using hAll

theorem run_flushSlotOp_knows {ops : List WriteOp}
    (h : Trace.run flushSlotOp ops first = .ok first') (hKnows : first.Knows keys) :
    first'.Knows (keys ++ ops.flatMap WriteOp.walked) := by
  induction ops generalizing first keys with
  | nil =>
    cases h
    simpa using hKnows
  | cons op ops ih =>
    obtain ⟨first₁, h₁, h⟩ := Trace.run_cons_ok.mp h
    simpa using ih h (flushSlotOp_knows h₁ hKnows)

/-- A walk that refuses nothing has found the slot of every key that is not empty,
and found none only where there is no such key. -/
theorem flushClusterSlot_ok {ops : List WriteOp} {r : Option (Fin nslots)}
    (h : flushClusterSlot ops = .ok r) :
    (∀ op ∈ ops, ∀ key ∈ op.walked, key ≠ [] → r = some (slot key)) ∧
      ∀ s, r = some s → ∃ op ∈ ops, ∃ key ∈ op.walked, key ≠ [] ∧ slot key = s := by
  unfold flushClusterSlot at h
  cases hRun : Trace.run flushSlotOp ops none with
  | error e => rw [hRun] at h; cases h
  | ok first =>
    rw [hRun] at h
    cases h
    have hNone : FirstSeen.Knows none [] := ⟨by simp, by simp⟩
    have hKnows := run_flushSlotOp_knows hRun hNone
    rw [List.nil_append] at hKnows
    refine ⟨fun op hOp key hKey => hKnows.agree key (List.mem_flatMap.mpr ⟨op, hOp, hKey⟩),
      fun s hs => ?_⟩
    obtain ⟨⟨f, s'⟩, hf, rfl⟩ := Option.map_eq_some_iff.mp hs
    obtain ⟨hMem, hne, hSlot⟩ := hKnows.seen f s' hf
    obtain ⟨op, hOp, hKey⟩ := List.mem_flatMap.mp hMem
    exact ⟨op, hOp, f, hKey, hne, hSlot⟩

end Walk

/-! ## Checks name no key of their own -/

def Plan.Keyless (plan : Plan) : Prop := ∀ ch ∈ plan.checks, checkKeyArg ch.step.op = none

section Keyless

variable {op : WriteOp} {plan plan' : Plan} {members members' : Members}

theorem Plan.Keyless.of_checks (h : plan.Keyless) (hChecks : plan'.checks = plan.checks) :
    plan'.Keyless := by
  unfold Plan.Keyless
  rw [hChecks]
  exact h

theorem Plan.Keyless.addCheck (h : plan.Keyless) {ch : Check}
    (hCheck : checkKeyArg ch.step.op = none) : (plan.addCheck ch).Keyless := by
  intro c hc
  rcases List.mem_append.mp hc with hc | hc
  · exact h c hc
  · rw [List.mem_singleton.mp hc]
    exact hCheck

theorem Plan.Keyless.precondition (h : plan.Keyless) (first : Bool) (kind : OpKind)
    (renameTarget : Bool) : (plan.precondition first kind renameTarget).Keyless := by
  unfold Plan.precondition
  split
  · split
    · exact (h.addCheck rfl : (plan.addCheck .keyAbsent).Keyless).of_checks rfl
    · exact (h.addCheck rfl : (plan.addCheck .keyPresent).Keyless).of_checks rfl
  · exact h

theorem subPrecondition_keyless {sub : Bytes} {absent present : Check} {dup : Refusal}
    {m : MemberEntry} (hAbsent : checkKeyArg absent.step.op = none)
    (hPresent : checkKeyArg present.step.op = none) (hPlan : plan.Keyless)
    (h : subPrecondition plan members op sub absent present dup = .ok (plan', m)) :
    plan'.Keyless := by
  unfold subPrecondition at h
  split at h
  · split at h
    · cases h
      exact hPlan
    · cases h
      refine hPlan.addCheck ?_
      split
      · exact hAbsent
      · exact hPresent
  · split at h
    · cases h
    · cases h
      exact hPlan

variable (hPlan : plan.Keyless)

include hPlan

theorem foldField_keyless {f : WriteArg} (h : foldField op f plan members = .ok (plan', members')) :
    plan'.Keyless := by
  obtain ⟨⟨plan₁, m⟩, h₁, h₂⟩ := bind_ok.mp h
  have hPre : plan₁.Keyless := subPrecondition_keyless rfl rfl hPlan h₁
  dsimp only at h₂
  split at h₂ <;> cases h₂ <;> exact hPre.of_checks rfl

theorem foldFields_keyless {fs : List WriteArg}
    (h : foldFields op fs plan members = .ok (plan', members')) : plan'.Keyless := by
  induction fs generalizing plan members with
  | nil =>
    cases h
    exact hPlan
  | cons f fs ih =>
    obtain ⟨⟨plan₁, members₁⟩, h₁, h₂⟩ := bind_ok.mp h
    exact ih (foldField_keyless hPlan h₁) h₂

theorem foldMember_keyless (h : foldMember op plan members = .ok (plan', members')) :
    plan'.Keyless := by
  unfold foldMember at h
  split at h
  · cases h
    exact hPlan
  · obtain ⟨⟨plan₁, m⟩, h₁, h₂⟩ := bind_ok.mp h
    have hPre : plan₁.Keyless := by
      unfold memberPrecondition at h₁
      refine subPrecondition_keyless ?_ ?_ hPlan h₁ <;> split <;> rfl
    dsimp only at h₂
    split at h₂
    · cases h₂
      exact hPre.of_checks rfl
    · split at h₂ <;> cases h₂ <;> exact hPre.of_checks rfl

theorem foldList_keyless : (foldList op plan members).1.Keyless := by
  unfold foldList
  split
  · exact hPlan
  · dsimp only
    split
    · split
      · exact hPlan.of_checks rfl
      · exact (hPlan.addCheck rfl).of_checks rfl
    · exact hPlan.of_checks rfl

theorem foldShape_keyless (h : foldShape op plan members = .ok (plan', members')) :
    plan'.Keyless := by
  unfold foldShape at h
  split at h
  · split at h <;> cases h
    · exact hPlan.of_checks rfl
    · exact hPlan
  · obtain ⟨⟨plan₁, members₁⟩, h₁, h₂⟩ := bind_ok.mp h
    cases h₂
    exact (foldFields_keyless hPlan h₁).of_checks (foldTtls_spec op plan₁).2
  · exact foldMember_keyless hPlan h
  · exact foldMember_keyless hPlan h
  · rw [show plan' = (foldList op plan members).1 from congrArg Prod.fst (Except.ok.inj h).symm]
    exact foldList_keyless hPlan
  · cases h

theorem foldWrite_keyless (h : foldWrite op plan members = .ok (plan', members')) :
    plan'.Keyless := by
  unfold foldWrite at h
  split at h
  · cases h
    exact hPlan.of_checks (Plan.keyset_checks _ op _ _)
  · split at h
    · obtain ⟨plan₁, h₁, h₂⟩ := bind_ok.mp h
      cases h₂
      exact hPlan.of_checks ((plan₁.finish_checks op).trans (foldPacked_spec h₁).2)
    · obtain ⟨⟨plan₁, members₁⟩, h₁, h₂⟩ := bind_ok.mp h
      cases h₂
      exact (foldShape_keyless hPlan h₁).of_checks (plan₁.finish_checks op)

omit hPlan

theorem Ledger.entry_keyless {L : Ledger} (hL : ∀ k p, L.plan? k = some p → p.Keyless) (k : Bytes)
    (ttype : TableType) : (L.entry k ttype).Keyless := by
  unfold Ledger.entry
  cases hPlan : L.plan? k with
  | none => simp [Plan.Keyless, Plan.fresh, Check.step, checkKeyArg]
  | some p => exact hL k p hPlan

theorem note_keyless {L L' : Ledger} (hL : ∀ k p, L.plan? k = some p → p.Keyless)
    (h : note op L = .ok L') : ∀ k p, L'.plan? k = some p → p.Keyless := by
  obtain ⟨plan, hStep⟩ := note_spec h
  have hEntry : ∀ k, ((L.entry k op.tabletype).addRelid op.relid).Keyless := fun k =>
    (L.entry_keyless hL k op.tabletype).of_checks (Plan.addRelid_same _ _).1
  have hWrite : plan.Keyless := by
    refine foldWrite_keyless ?_ hStep.write
    exact ((hEntry op.key).precondition _ _ _).of_checks (Plan.foldRename_same _ _).1
  intro k p hp
  by_cases hk : k ∈ op.names
  · rcases WriteOp.mem_names hk with rfl | ⟨hRen, hOld⟩
    · rw [hStep.plan_key] at hp
      cases hp
      exact hWrite
    · rw [hStep.plan_old hRen hOld] at hp
      cases hp
      exact (hEntry k).precondition _ _ _
  · exact hL k p (hStep.plan_other hk ▸ hp)

theorem foldOps_keyless {ops : List WriteOp} {L : Ledger} (h : foldOps ops .empty = .ok L) :
    ∀ p ∈ L.plans, p.Keyless := by
  have hPlans : ∀ k p, L.plan? k = some p → p.Keyless :=
    Trace.run_invariant (fun _ _ _ _ hL hNote => note_keyless hL hNote)
      (by simp [Ledger.plan?, Ledger.empty]) h
  exact fun p hp => hPlans p.key p (Ledger.plan?_of_mem hp)

end Keyless

/-! ## The keys of a buffer -/

/-- The keys an operation touches: its own names, and its index if it edits it. -/
def WriteOp.touched (op : WriteOp) : List Bytes :=
  op.names ++ if op.editsIndex then op.keyset.toList else []

theorem WriteOp.touched_subset_walked (op : WriteOp) : op.touched ⊆ op.walked := by
  intro key hKey
  rcases List.mem_append.mp hKey with hKey | hKey
  · rcases WriteOp.mem_names hKey with rfl | ⟨-, hOld⟩
    · exact List.mem_cons_self
    · simp [walked, hOld]
  · split at hKey
    · exact List.mem_cons_of_mem _ (List.mem_append_right _ hKey)
    · cases hKey

section Touched

variable {op : WriteOp} {key : Bytes}

theorem OpAction.key_touched {z : Bool} {a : Action} (h : OpAction op z a) {i : Nat}
    (hArg : actionKeyArg a.step.op = some i) (hKey : a.step.args[i]? = some key) :
    key ∈ op.touched := by
  cases h with
  | rename hRen hOld =>
    cases hArg
    cases hKey
    exact List.mem_append_left _ (by simp [WriteOp.names, hRen, hOld])
  | ksetAdd hs _ hEdits | ksetRem hs _ hEdits =>
    cases hArg
    cases hKey
    exact List.mem_append_right _ (by simp [hEdits, hs])
  | _ => cases hArg

/-- The index an operation edits is named by one of its actions. -/
theorem WriteOp.exists_keyset_action (hEdits : op.editsIndex = true) (hs : op.keyset = some key)
    (z : Bool) : ∃ a ∈ op.actions z, actionKeyArg a.step.op = some 0 ∧ a.step.args[0]? = some key := by
  have hActions : ∀ k add, op.keysetActions k add =
      [if add then .ksetAdd key k else .ksetRem key k] := by
    intro k add
    rw [keysetActions, hs]
  simp only [editsIndex, Bool.or_eq_true, decide_eq_true_eq] at hEdits
  rcases hEdits with (hRen | hIns) | hDel
  · obtain ⟨-, old, hOld, -⟩ := isRename_iff.mp hRen
    refine ⟨.ksetRem key old, List.mem_append_left _ ?_, rfl, rfl⟩
    simp [renameActions, hOld, hRen, hActions]
  · have hKeep : op.deletesKey = false := by simp [deletesKey, hIns]
    refine ⟨.ksetAdd key op.key, List.mem_append_right _ ?_, rfl, rfl⟩
    simp [writeActions, hKeep, hIns, hActions]
  · refine ⟨.ksetRem key op.key, List.mem_append_right _ ?_, rfl, rfl⟩
    simp [writeActions, hDel, hActions]

theorem mem_keyArgs_action {plan : Plan} : key ∈ keyArgs actionKeyArg plan.actionSteps ↔
    ∃ a ∈ plan.actions, ∃ i, actionKeyArg a.step.op = some i ∧ a.step.args[i]? = some key := by
  simp only [keyArgs, Plan.actionSteps, List.mem_filterMap, List.mem_map, exists_exists_and_eq_and,
    Option.bind_eq_some_iff]

theorem Plan.Keyless.keyArgs {plan : Plan} (h : plan.Keyless) :
    keyArgs checkKeyArg plan.checkSteps = [] := by
  refine List.filterMap_eq_nil_iff.mpr fun s hs => ?_
  obtain ⟨ch, hCheck, rfl⟩ := List.mem_map.mp hs
  rw [h ch hCheck, Option.bind_none]

/-- The keys the program declares for a buffer are those its operations touch. -/
theorem mem_declaredKeys_foldOps {ops : List WriteOp} {L : Ledger}
    (hFold : foldOps ops .empty = .ok L) :
    key ∈ declaredKeys L.plans ↔ ∃ op ∈ ops, key ∈ op.touched := by
  rw [mem_declaredKeys]
  constructor
  · rintro ⟨plan, hPlan, hKey⟩
    have hFrom : L.From ops := .foldOps hFold
    rcases hKey with rfl | hKey | hKey
    · obtain ⟨op, hOp, hNames, -⟩ := hFrom.types (Ledger.plan?_of_mem hPlan)
      exact ⟨op, hOp, List.mem_append_left _ hNames⟩
    · rw [(foldOps_keyless hFold plan hPlan).keyArgs] at hKey
      cases hKey
    · obtain ⟨a, ha, i, hArg, hGet⟩ := mem_keyArgs_action.mp hKey
      have hMem : a ∈ L.actionsOf plan.key := by
        simpa [Ledger.actionsOf, Ledger.plan?_of_mem hPlan] using ha
      obtain ⟨op, hOp, op', -, -, -, hAction⟩ := hFrom.actions hMem
      exact ⟨op, hOp, (opAction_of_mem hAction).key_touched hArg hGet⟩
  · rintro ⟨op, hOp, hKey⟩
    have hCovers := foldOps_covers hFold
    rcases List.mem_append.mp hKey with hKey | hKey
    · obtain ⟨plan, hPlan, rfl⟩ := List.mem_map.mp (hCovers.names op hOp key hKey)
      exact ⟨plan, hPlan, .inl rfl⟩
    · split at hKey
      · rename_i hEdits
        obtain ⟨z, hOwn⟩ := hCovers.own op hOp
        obtain ⟨a, ha, hArg, hGet⟩ :=
          op.exists_keyset_action hEdits (Option.mem_toList.mp hKey) z
        have hMem := hOwn a ha
        cases hPlan : L.plan? op.key with
        | none => simp [Ledger.actionsOf, hPlan] at hMem
        | some plan =>
          rw [Ledger.actionsOf, hPlan] at hMem
          exact ⟨plan, (Ledger.mem_of_plan? hPlan).1,
            .inr (.inr (mem_keyArgs_action.mpr ⟨a, hMem, 0, hArg, hGet⟩))⟩
      · cases hKey

end Touched

/-! ## The slot of the program -/

/-- No operation touches the empty key, or some key that is not empty is in its slot. -/
def EmptyKeySeen (ops : List WriteOp) : Prop :=
  (∀ op ∈ ops, [] ∉ op.touched) ∨
    ∃ op ∈ ops, ∃ key ∈ op.walked, key ≠ [] ∧ slot key = slot []

/-- A walk that refuses nothing finds a slot for a buffer that is not empty, and
every key the program declares is in it, unless the empty key is declared and no
other key is in its slot. -/
theorem flushClusterSlot_covers_iff {ops : List WriteOp} {L : Ledger} {r : Option (Fin nslots)}
    (hFold : foldOps ops .empty = .ok L) (hSlot : flushClusterSlot ops = .ok r) :
    ((ops ≠ [] → r.isSome) ∧ ∀ key ∈ declaredKeys L.plans, r = some (slot key)) ↔
      EmptyKeySeen ops := by
  obtain ⟨hAgree, hSeen⟩ := flushClusterSlot_ok hSlot
  have hOwn : ∀ op : WriteOp, op.key ∈ op.touched := fun op =>
    List.mem_append_left _ List.mem_cons_self
  constructor
  · rintro ⟨-, hKeys⟩
    by_cases hEmpty : ∃ op ∈ ops, [] ∈ op.touched
    · exact .inr (hSeen _ (hKeys [] ((mem_declaredKeys_foldOps hFold).mpr hEmpty)))
    · exact .inl fun op hOp hKey => hEmpty ⟨op, hOp, hKey⟩
  · intro hCondition
    have hKeys : ∀ op ∈ ops, ∀ key ∈ op.touched, r = some (slot key) := by
      intro op hOp key hKey
      by_cases hne : key = []
      · rcases hCondition with hNone | ⟨op', hOp', key', hKey', hne', hZero⟩
        · exact absurd (hne ▸ hKey) (hNone op hOp)
        · rw [hAgree op' hOp' key' hKey' hne', hZero, hne]
      · exact hAgree op hOp key (op.touched_subset_walked hKey) hne
    refine ⟨fun hOps => ?_, fun key hKey => ?_⟩
    · obtain ⟨op, hOp⟩ := List.exists_mem_of_ne_nil ops hOps
      rw [hKeys op hOp op.key (hOwn op)]
      rfl
    · obtain ⟨op, hOp, hTouched⟩ := (mem_declaredKeys_foldOps hFold).mp hKey
      exact hKeys op hOp key hTouched

/-- An INSERT into a table of strings. -/
def WriteOp.insertString (key : Bytes) : WriteOp where
  kind := .insert
  relid := 1
  tabletype := .string
  key := key
  value := some (ascii "1")

theorem flushClusterSlot_covers_tagged :
    ∃ L r, foldOps [.insertString (ascii "\x7bt\x7da"), .insertString (ascii "\x7bt\x7db")] .empty = .ok L ∧
      flushClusterSlot [.insertString (ascii "\x7bt\x7da"), .insertString (ascii "\x7bt\x7db")] = .ok r ∧
      r.isSome ∧ ∀ key ∈ declaredKeys L.plans, r = some (slot key) := by
  have hCovers := (@flushClusterSlot_covers_iff
    [.insertString (ascii "\x7bt\x7da"), .insertString (ascii "\x7bt\x7db")]
    _ (some (slot (ascii "\x7bt\x7da"))) rfl (by decide +kernel)).mpr (.inl (by decide))
  exact ⟨_, _, rfl, by decide +kernel, hCovers.1 (by simp), hCovers.2⟩

/-- A row under the empty key has a slot that the walk does not report, and next to
a row of another slot the unit is sent to that slot with both keys declared. -/
theorem empty_key_not_seen :
    flushClusterSlot [.insertString []] = .ok none ∧
      flushClusterSlot [.insertString [], .insertString (ascii "a")] =
        .ok (some (slot (ascii "a"))) ∧
      ∃ L, foldOps [.insertString [], .insertString (ascii "a")] .empty = .ok L ∧
        [] ∈ declaredKeys L.plans ∧ slot [] ≠ slot (ascii "a") :=
  ⟨by decide +kernel, by decide +kernel, _, rfl, by decide, by decide +kernel⟩

end ValkeyFdw
