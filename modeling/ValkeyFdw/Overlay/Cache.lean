import ValkeyFdw.Lib.Stamped
import ValkeyFdw.Scan.Overlay
import ValkeyFdw.Session.Buffer

/-!
# The overlay's index

The overlay does not search the write buffer for every key it is asked about. It
keeps an index from table and key to the operations on it, stamped with the two
counters of the buffer and a pointer to the last operation it has recorded. A
question finds the index current, extends it behind that pointer, or throws it
away and records the buffer afresh.

Operations live at addresses that are not given back before the buffer is reset. The
buffer's other models keep the list of operations alone; what happens to it here is what
they say (`ops_append`, `ops_truncate`, `ops_preCommitSub`).
-/

namespace ValkeyFdw

open Stamped

/-! ## The operation list -/

/-- Memory that no operation has been written to. -/
def WriteOp.blank : WriteOp := { kind := .insert, relid := 0, tabletype := .string, key := [] }

/-- The operations of the write buffer in memory. -/
structure OpLog where
  heap : Nat → WriteOp := fun _ => .blank
  /-- Addresses given out since the last reset; a reset gives them out again. -/
  used : Nat := 0
  list : Log Nat := {}
  nlive : Nat := 0
  nodup : list.entries.Nodup := by exact List.nodup_nil
  allocated : ∀ a ∈ list.entries, a < used := by exact fun _ h => absurd h List.not_mem_nil
  counted : nlive = list.entries.length := by rfl

namespace OpLog

variable (l : OpLog)

/-- The live operations. -/
def ops : List WriteOp := l.list.entries.map l.heap

def isEmpty : Bool := l.nlive == 0

/-- Link an operation at the end, stamped with its nest level and command. -/
def append (level cid : Nat) (op : WriteOp) : OpLog where
  heap := Function.update l.heap l.used { op with level := level, cid := cid }
  used := l.used + 1
  list := l.list.push l.used
  nlive := l.nlive + 1
  nodup := by
    refine List.nodup_append.mpr ⟨l.nodup, List.nodup_singleton _, ?_⟩
    intro a ha b hb
    have := l.allocated a ha
    rw [List.mem_singleton] at hb
    omega
  allocated := by
    intro a ha
    rcases List.mem_append.mp ha with ha | ha
    · exact Nat.lt_succ_of_lt (l.allocated a ha)
    · rw [List.mem_singleton] at ha
      omega
  counted := by simp [Log.push, l.counted]

/-- Whether the operation at an address was made at the nest level or below it. -/
def atLevel (level a : Nat) : Bool := level ≤ (l.heap a).level

theorem kept_append_dropped (level : Nat) :
    l.list.entries.rdropWhile (l.atLevel level) ++ l.list.entries.rtakeWhile (l.atLevel level) =
      l.list.entries :=
  List.rdropWhile_append_rtakeWhile

/-- Unlink the operations of a subtransaction from the tail. Their memory stays. The
counters move only if there was something to unlink. -/
def truncate (level : Nat) : OpLog where
  heap := l.heap
  used := l.used
  list := if l.list.entries.rtakeWhile (l.atLevel level) = [] then l.list
    else l.list.cut (l.list.entries.rdropWhile (l.atLevel level))
  nlive := l.nlive - (l.list.entries.rtakeWhile (l.atLevel level)).length
  nodup := by
    split
    · exact l.nodup
    · exact l.nodup.sublist (List.rdropWhile_prefix _ _).sublist
  allocated := by
    split
    · exact l.allocated
    · exact fun a ha => l.allocated a ((List.rdropWhile_prefix _ _).subset ha)
  counted := by
    have hSplit := congrArg List.length (l.kept_append_dropped level)
    rw [List.length_append] at hSplit
    rw [l.counted]
    split
    · rename_i hNone
      rw [hNone]
      rfl
    · simp only [Log.cut]
      omega

/-- Hand the operations of a subtransaction to its parent. -/
def preCommitSub (level : Nat) : OpLog :=
  { l with
    heap := fun a =>
      if a ∈ l.list.entries.rtakeWhile (l.atLevel level) then
        { l.heap a with level := level - 1 }
      else l.heap a }

/-- The end of the transaction. -/
def reset : OpLog where
  heap := l.heap
  list := l.list.cut []
  nodup := List.nodup_nil
  allocated := by simp [Log.cut]
  counted := rfl

end OpLog

/-! ## The index -/

/-- The index: for a table and a key, the operations on it in the order of the
buffer. -/
structure Overlay where
  built : Bool := false
  tab : Nat → Bytes → List Nat := fun _ _ => []
  builtGen : Nat := 0
  builtShrinkGen : Nat := 0
  /-- The last operation recorded, behind which an extension resumes. -/
  builtTail : Option Nat := none

namespace Overlay

/-- Append one operation to the list of its table and key. -/
def record (l : OpLog) (tab : Nat → Bytes → List Nat) (a : Nat) : Nat → Bytes → List Nat :=
  fun relid key =>
    if (l.heap a).relid = relid ∧ (l.heap a).key = key then tab relid key ++ [a]
    else tab relid key

/-- Bring the index up to date with the buffer. -/
def build (l : OpLog) (o : Overlay) : Overlay :=
  if o.built && o.builtGen == l.list.gen then o
  -- only appends since the last build
  else if o.built && o.builtShrinkGen == l.list.shrinkGen then
    { o with
      tab := (behind o.builtTail l.list.entries).foldl (record l) o.tab
      builtTail := l.list.entries.getLast?
      builtGen := l.list.gen }
  else
    { built := true
      tab := l.list.entries.foldl (record l) fun _ _ => []
      builtGen := l.list.gen
      builtShrinkGen := l.list.shrinkGen
      builtTail := l.list.entries.getLast? }

/-- The answer of the index: from the newest operation backwards to one that the
command may see. -/
def answer (l : OpLog) (o : Overlay) (relid cid : Nat) (key : Bytes) : Verdict :=
  match (o.tab relid key).reverse.find? fun a => (l.heap a).cid < cid with
  | none => .pass
  | some a =>
    if (l.heap a).kind = .delete then .hide
    else match (l.heap a).newtup with
      | none => .pass
      | some row => .replace row

/-- What the transaction has done to a key. An empty buffer is not indexed. -/
def check (l : OpLog) (o : Overlay) (relid cid : Nat) (key : Bytes) : Verdict × Overlay :=
  if l.isEmpty then (.pass, o)
  else ((o.build l).answer l relid cid key, o.build l)

end Overlay

/-! ## Runs -/

/-- The write buffer of a backend and the index over it. -/
structure Indexed where
  log : OpLog := {}
  overlay : Overlay := {}

/-- What happens to the buffer and its index. -/
inductive IndexEvent where
  | append (level cid : Nat) (op : WriteOp)
  /-- A subtransaction aborts. Between the unlinking and the reset of the index the
  ledger is folded again, which may raise: then the index stays as it was. -/
  | abortSub (level : Nat) (raised : Bool)
  | preCommitSub (level : Nat)
  | reset
  | check (relid cid : Nat) (key : Bytes)

namespace Indexed

def step : IndexEvent → Indexed → Indexed
  | .append level cid op, s => { s with log := s.log.append level cid op }
  | .abortSub level raised, s =>
    ⟨s.log.truncate level, if raised then s.overlay else {}⟩
  | .preCommitSub level, s => { s with log := s.log.preCommitSub level }
  | .reset, s => ⟨s.log.reset, {}⟩
  | .check relid cid key, s => { s with overlay := (s.overlay.check s.log relid cid key).2 }

def run (events : List IndexEvent) (s : Indexed) : Indexed := events.foldl (fun s e => step e s) s

end Indexed

/-! ## The list of operations -/

namespace OpLog

variable (l : OpLog) (level : Nat)

theorem isEmpty_iff : l.isEmpty = true ↔ l.ops = [] := by
  simp [isEmpty, ops, l.counted]

theorem heap_append {a : Nat} (ha : a < l.used) (cid : Nat) (op : WriteOp) :
    (l.append level cid op).heap a = l.heap a :=
  Function.update_of_ne (Nat.ne_of_lt ha) _ _

theorem heap_preCommitSub (a : Nat) :
    ∃ n, (l.preCommitSub level).heap a = { l.heap a with level := n } := by
  simp only [preCommitSub]
  split
  · exact ⟨_, rfl⟩
  · exact ⟨(l.heap a).level, rfl⟩

theorem ops_append (cid : Nat) (op : WriteOp) :
    (l.append level cid op).ops = l.ops ++ [{ op with level := level, cid := cid }] := by
  simp only [ops, append, Log.push, List.map_append, List.map_singleton, Function.update_self]
  congr 1
  exact List.map_congr_left fun a ha => Function.update_of_ne (l.allocated a ha).ne _ _

theorem map_rdropWhile :
    (l.list.entries.rdropWhile (l.atLevel level)).map l.heap =
      l.ops.rdropWhile fun op => level ≤ op.level := by
  simp only [List.rdropWhile, ops, ← List.map_reverse, List.dropWhile_map]
  rfl

theorem map_rtakeWhile :
    (l.list.entries.rtakeWhile (l.atLevel level)).map l.heap =
      l.ops.rtakeWhile fun op => level ≤ op.level := by
  simp only [List.rtakeWhile, ops, ← List.map_reverse, List.takeWhile_map]
  rfl

theorem entries_truncate :
    (l.truncate level).list.entries = l.list.entries.rdropWhile (l.atLevel level) := by
  simp only [truncate]
  split
  · rename_i hNone
    have hSplit := l.kept_append_dropped level
    rw [hNone, List.append_nil] at hSplit
    exact hSplit.symm
  · rfl

theorem ops_truncate :
    (l.truncate level).ops = l.ops.rdropWhile fun op => level ≤ op.level := by
  rw [← map_rdropWhile, ops, entries_truncate]
  rfl

theorem ops_preCommitSub : (l.preCommitSub level).ops = promote level l.ops := by
  have hSplit := l.kept_append_dropped level
  have hNodup := l.nodup
  rw [← hSplit] at hNodup
  have hDisjoint := (List.nodup_append.mp hNodup).2.2
  rw [promote, ← map_rdropWhile, ← map_rtakeWhile, List.map_map, ops]
  conv_lhs => rw [show (l.preCommitSub level).list = l.list from rfl, ← hSplit, List.map_append]
  congr 1
  · refine List.map_congr_left fun a ha => ?_
    exact if_neg fun hTaken => hDisjoint a ha a hTaken rfl
  · exact List.map_congr_left fun a ha => if_pos ha

theorem follows_append {old : Log Nat} (h : old.Follows l.list) (cid : Nat) (op : WriteOp) :
    old.Follows (l.append level cid op).list :=
  h.push l.used

theorem follows_truncate {old : Log Nat} (h : old.Follows l.list) :
    old.Follows (l.truncate level).list := by
  simp only [truncate]
  split
  · exact h
  · exact h.cut _

end OpLog

/-! ## What the index holds -/

namespace OpLog

/-- The operations of a list on a key of a table. -/
def onKey (l : OpLog) (relid : Nat) (key : Bytes) (as : List Nat) : List Nat :=
  as.filter fun a => (l.heap a).relid = relid ∧ (l.heap a).key = key

variable {l l' : OpLog} {relid : Nat} {key : Bytes} {as : List Nat}

theorem onKey_congr (h : ∀ a ∈ as, ∃ n, l'.heap a = { l.heap a with level := n }) :
    l'.onKey relid key as = l.onKey relid key as := by
  refine List.filter_congr fun a ha => ?_
  obtain ⟨n, hn⟩ := h a ha
  rw [hn]

theorem onKey_append (l : OpLog) (as bs : List Nat) :
    l.onKey relid key (as ++ bs) = l.onKey relid key as ++ l.onKey relid key bs :=
  List.filter_append _ _

theorem foldl_record (l : OpLog) (tab : Nat → Bytes → List Nat) (as : List Nat) (relid : Nat)
    (key : Bytes) :
    as.foldl (Overlay.record l) tab relid key = tab relid key ++ l.onKey relid key as := by
  induction as generalizing tab with
  | nil => simp [onKey]
  | cons a as ih =>
    rw [List.foldl_cons, ih, Overlay.record]
    simp only [onKey, List.filter_cons, decide_eq_true_eq]
    split
    · rw [List.append_assoc, List.singleton_append]
    · rfl

end OpLog

namespace Overlay

/-- The index was brought up to date with the log `old`. -/
structure BuiltOn (o : Overlay) (l : OpLog) (old : Log Nat) : Prop where
  follows : old.Follows l.list
  gen : o.builtGen = old.gen
  shrinkGen : o.builtShrinkGen = old.shrinkGen
  tail : o.builtTail = old.entries.getLast?
  allocated : ∀ a ∈ old.entries, a < l.used
  tab : ∀ relid key, o.tab relid key = l.onKey relid key old.entries

/-- An index that may be asked after it has been brought up to date. -/
def Sound (o : Overlay) (l : OpLog) : Prop := o.built = true → ∃ old, o.BuiltOn l old

variable {o : Overlay} {l l' : OpLog} {old : Log Nat}

theorem BuiltOn.step (h : o.BuiltOn l old) (hFollows : old.Follows l'.list) (hUsed : l.used ≤ l'.used)
    (hHeap : ∀ a < l.used, ∃ n, l'.heap a = { l.heap a with level := n }) : o.BuiltOn l' old where
  follows := hFollows
  gen := h.gen
  shrinkGen := h.shrinkGen
  tail := h.tail
  allocated a ha := (h.allocated a ha).trans_le hUsed
  tab relid key := by
    rw [h.tab, OpLog.onKey_congr fun a ha => hHeap a (h.allocated a ha)]

/-- Whichever way it is brought up to date, the index then holds the operations of
the live buffer. -/
theorem build_spec (h : o.Sound l) : (o.build l).BuiltOn l l.list := by
  unfold build
  split_ifs with hSame hGrown
  · -- reused: no change since, so the buffer is the one it was built on
    rw [Bool.and_eq_true, beq_iff_eq] at hSame
    obtain ⟨old, hOld⟩ := h hSame.1
    have hGen : l.list.gen = old.gen := by rw [← hSame.2, hOld.gen]
    rw [hOld.follows.same hGen]
    exact hOld
  · -- extended: nothing was lost, so what it holds is the beginning of the buffer
    rw [Bool.and_eq_true, beq_iff_eq] at hGrown
    obtain ⟨old, hOld⟩ := h hGrown.1
    have hShrink : l.list.shrinkGen = old.shrinkGen := by rw [← hGrown.2, hOld.shrinkGen]
    refine ⟨.refl _, rfl, hGrown.2, rfl, l.allocated, fun relid key => ?_⟩
    refine (OpLog.foldl_record _ _ _ relid key).trans ?_
    rw [hOld.tab, hOld.tail, ← OpLog.onKey_append,
      append_behind (hOld.follows.grown hShrink) l.nodup]
  · exact ⟨.refl _, rfl, rfl, rfl, l.allocated, fun relid key => OpLog.foldl_record _ _ _ relid key⟩

/-- Going back through the operations on a key is going back through the buffer. -/
theorem BuiltOn.answer_eq (h : o.BuiltOn l l.list) (relid cid : Nat) (key : Bytes) :
    o.answer l relid cid key = overlayCheck l.ops relid cid key := by
  have hFind : l.ops.reverse.find? (fun op => op.relid = relid && op.key = key && op.cid < cid) =
      ((o.tab relid key).reverse.find? fun a => (l.heap a).cid < cid).map l.heap := by
    rw [h.tab, OpLog.onKey, ← List.filter_reverse, List.find?_filter, OpLog.ops, ← List.map_reverse,
      List.find?_map]
    congr 2
    funext a
    simp
  rw [answer, overlayCheck, hFind]
  cases (o.tab relid key).reverse.find? fun a => (l.heap a).cid < cid <;> rfl

theorem check_eq (h : o.Sound l) (relid cid : Nat) (key : Bytes) :
    (o.check l relid cid key).1 = overlayCheck l.ops relid cid key := by
  unfold check
  split
  · rename_i hEmpty
    rw [l.isEmpty_iff.mp hEmpty]
    rfl
  · exact (build_spec h).answer_eq relid cid key

theorem Sound.check (h : o.Sound l) (relid cid : Nat) (key : Bytes) :
    (o.check l relid cid key).2.Sound l := by
  unfold Overlay.check
  split
  · exact h
  · exact fun _ => ⟨_, build_spec h⟩

end Overlay

/-! ## The index is always current -/

namespace Indexed

theorem sound_step (e : IndexEvent) {s : Indexed} (h : s.overlay.Sound s.log) :
    (step e s).overlay.Sound (step e s).log := by
  cases e with
  | append level cid op =>
    intro hBuilt
    obtain ⟨old, hOld⟩ := h hBuilt
    refine ⟨old, hOld.step (s.log.follows_append level hOld.follows cid op) (Nat.le_succ _) ?_⟩
    exact fun a ha => ⟨_, s.log.heap_append level ha cid op⟩
  | abortSub level raised =>
    cases raised with
    | false => exact fun hBuilt => absurd hBuilt Bool.false_ne_true
    | true =>
      intro hBuilt
      obtain ⟨old, hOld⟩ := h hBuilt
      exact ⟨old, hOld.step (s.log.follows_truncate level hOld.follows) le_rfl fun a _ => ⟨_, rfl⟩⟩
  | preCommitSub level =>
    intro hBuilt
    obtain ⟨old, hOld⟩ := h hBuilt
    exact ⟨old, hOld.step hOld.follows le_rfl fun a _ => s.log.heap_preCommitSub level a⟩
  | reset => exact fun hBuilt => absurd hBuilt Bool.false_ne_true
  | check relid cid key => exact h.check relid cid key

theorem sound_run (events : List IndexEvent) {s : Indexed} (h : s.overlay.Sound s.log) :
    (run events s).overlay.Sound (run events s).log := by
  induction events generalizing s with
  | nil => exact h
  | cons e events ih => exact ih (sound_step e h)

theorem sound_start : ({} : Indexed).overlay.Sound ({} : Indexed).log :=
  fun hBuilt => absurd hBuilt Bool.false_ne_true

/-- At every point of every run, the index answers what searching the live buffer
backwards would answer. -/
theorem check_run_eq (events : List IndexEvent) (relid cid : Nat) (key : Bytes) :
    ((run events {}).overlay.check (run events {}).log relid cid key).1 =
      overlayCheck (run events {}).log.ops relid cid key :=
  Overlay.check_eq (sound_run events sound_start) relid cid key

end Indexed

end ValkeyFdw
